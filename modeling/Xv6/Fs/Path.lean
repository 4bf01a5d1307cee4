import Xv6.Fs.Dir

/-!
# `fs.c`: path names

`skipelem(path, name)` skips the slashes before the next element of `path`, copies the element
into `name`, `NUL`-terminated when shorter than `DIRSIZ` and cut to `DIRSIZ` bytes when not, and
returns the path after the slashes that follow it, or `0` when no element is left. `namex` starts
at the root inode for a path that begins with a slash and at the current directory otherwise,
and looks each element up with `dirlookup` in the directory reached so far; `nameiparent` stops
one element early and returns the last one in `name`.

The inodes are seen here as `namex` sees them after `ilock`: a type, and for a directory the
entries that `dirlookup` searches (`dirlookup_stores` is that search on the bytes). What a path
is for is the walk through its names (`Path.walk`): on the path that `Path.render` writes for a
list of elements, `skipelem` reads them back one by one (`skipelem_render`), and `namei` and
`nameiparent` are the walk, from the root (`namei_render`, `nameiparent_render`) or, for a
relative path, from the current directory (`namei_relative`). On the device, with the entries
in the blocks of the directories, `namei` is the same walk (`nameiDisk_render`).
-/

set_option autoImplicit false

namespace Xv6.Fs

/-! ## 1. The code -/

/-- The byte `'/'`. -/
def slash : UInt8 := 47

/-- `ROOTINO`. -/
def rootino : Nat := 1

/-- `while(*path == '/') path++;` -/
def skipSlashes : List UInt8 → List UInt8
  | [] => []
  | c :: p => if c = slash then skipSlashes p else c :: p

/-- `while(*path != '/' && *path != 0) path++;` from `s`: the element, and the path from where
the loop stops. -/
def spanElem : List UInt8 → List UInt8 × List UInt8
  | [] => ([], [])
  | c :: p => if c ≠ slash ∧ c ≠ 0 then (c :: (spanElem p).1, (spanElem p).2) else ([], c :: p)

/-- What `skipelem` copies into `name` of an element of `len` bytes: `DIRSIZ` of them when
`len >= DIRSIZ`, else all of them and a `NUL`. -/
def elemName (elem : List UInt8) : List UInt8 :=
  if dirsiz ≤ elem.length then elem.take dirsiz else elem ++ [0]

/-- `skipelem(path, name)`: the path it returns and the bytes it copies into `name`; `none` is
the `return 0` when no element is left. -/
def skipelem (path : List UInt8) : Option (List UInt8 × List UInt8) :=
  if (skipSlashes path).headD 0 = 0 then none
  else some (skipSlashes (spanElem (skipSlashes path)).2, elemName (spanElem (skipSlashes path)).1)

/-- An inode as `namex` reads it after `ilock`: its type, and the entries that `dirlookup`
finds in it. -/
structure INode where
  type : Nat
  entries : List Dirent

/-- The loop of `namex(path, nameiparent, name)` from the inode `ip`, over the inode table `T`:
the inode it returns, with the bytes in `name`. `none` is a `return 0`. A round takes one
element, of at least one byte, so `path.length + 1` rounds of fuel are enough. -/
def namexLoop (T : Nat → INode) (nameiparent : Bool) :
    Nat → Nat → List UInt8 → List UInt8 → Option (Nat × List UInt8)
  | 0, _, _, _ => none
  | fuel + 1, ip, path, name =>
    (skipelem path).elim (if nameiparent then none else some (ip, name)) fun r =>
      if (T ip).type ≠ tDir then none
      -- `nameiparent` stops one level early, at the last element
      else if nameiparent = true ∧ r.1.headD 0 = 0 then some (ip, r.2)
      else (Dir.lookup r.2 (T ip).entries 0).elim none fun f => namexLoop T nameiparent fuel f.1 r.1 r.2

/-- `namex(path, nameiparent, name)` with the current directory `cwd` and the bytes `name`
held before the call. -/
def namex (T : Nat → INode) (cwd : Nat) (path : List UInt8) (nameiparent : Bool) (name : List UInt8) :
    Option (Nat × List UInt8) :=
  namexLoop T nameiparent (path.length + 1) (if path.headD 0 = slash then rootino else cwd) path name

/-- `namei(path)`: the inode, with a fresh `name` buffer read by nothing. -/
def namei (T : Nat → INode) (cwd : Nat) (path : List UInt8) : Option Nat :=
  (namex T cwd path false []).map Prod.fst

/-- `nameiparent(path, name)`: the parent's inode, and the last element in `name`. -/
def nameiparent (T : Nat → INode) (cwd : Nat) (path : List UInt8) (name : List UInt8) :
    Option (Nat × List UInt8) :=
  namex T cwd path true name

/-! ## 2. Paths and their walk -/

/-- A path element: at least one byte, and neither `'/'` nor `NUL`. -/
structure IsElem (e : List UInt8) : Prop where
  ne_nil : e ≠ []
  bytes : ∀ c ∈ e, c ≠ slash ∧ c ≠ 0

/-- The absolute path of these elements: each after one slash. -/
def Path.render : List (List UInt8) → List UInt8
  | [] => []
  | e :: es => slash :: (e ++ Path.render es)

/-- The inode that a path of these names leads to from `ip`: each name is looked up in the
directory reached so far, and a name past a file leads nowhere. -/
def Path.walk (T : Nat → INode) : Nat → List (List UInt8) → Option Nat
  | ip, [] => some ip
  | ip, n :: ns =>
    if (T ip).type ≠ tDir then none
    else (Dir.lookup n (T ip).entries 0).bind fun f => Path.walk T f.1 ns

/-- A one-byte element. -/
theorem IsElem.singleton {c : UInt8} (h₁ : c ≠ slash) (h₂ : c ≠ 0) : IsElem [c] :=
  ⟨List.cons_ne_nil c [], fun x hx => by rw [List.mem_singleton.mp hx]; exact ⟨h₁, h₂⟩⟩

theorem IsElem.forall_singleton {e : List UInt8} (h : IsElem e) : ∀ x ∈ [e], IsElem x :=
  fun x hx => by rw [List.mem_singleton.mp hx]; exact h

/-- A path of one-byte elements. -/
theorem IsElem.forall_bytes (cs : List UInt8) (h : ∀ c ∈ cs, c ≠ slash ∧ c ≠ 0) :
    ∀ x ∈ cs.map fun c => [c], IsElem x := by
  intro x hx
  obtain ⟨c, hc, rfl⟩ := List.mem_map.mp hx
  exact IsElem.singleton (h c hc).1 (h c hc).2

/-! ## 3. `skipelem` reads a rendered path back -/

section Skip

variable {e q : List UInt8} {es : List (List UInt8)}

theorem skipSlashes_of_head {p : List UInt8} (h : p.headD 0 ≠ slash) : skipSlashes p = p := by
  cases p with
  | nil => rfl
  | cons c p => exact if_neg h

theorem skipSlashes_skipSlashes (p : List UInt8) : skipSlashes (skipSlashes p) = skipSlashes p := by
  induction p with
  | nil => rfl
  | cons c p ih =>
    by_cases hc : c = slash
    · have h₁ : skipSlashes (c :: p) = skipSlashes p := if_pos hc
      rw [h₁, ih]
    · have h₁ : skipSlashes (c :: p) = c :: p := if_neg hc
      rw [h₁, h₁]

/-- `skipelem` skips the slashes itself. -/
theorem skipelem_skipSlashes (p : List UInt8) : skipelem (skipSlashes p) = skipelem p := by
  rw [skipelem, skipelem, skipSlashes_skipSlashes]

/-- The span over an element stops at the `'/'` or the `NUL` after it. -/
theorem spanElem_append (he : ∀ c ∈ e, c ≠ slash ∧ c ≠ 0) (hq : q.headD 0 = slash ∨ q.headD 0 = 0) :
    spanElem (e ++ q) = (e, q) := by
  induction e with
  | nil =>
    cases q with
    | nil => rfl
    | cons c q =>
      have hc : ¬(c ≠ slash ∧ c ≠ 0) := fun h => hq.elim h.1 h.2
      rw [List.nil_append, spanElem, if_neg hc]
  | cons c e ih =>
    have hc := he c List.mem_cons_self
    rw [List.cons_append, spanElem, if_pos hc, ih fun c' hc' => he c' (List.mem_cons_of_mem _ hc')]

theorem head_render (es : List (List UInt8)) :
    (Path.render es).headD 0 = slash ∨ (Path.render es).headD 0 = 0 := by
  cases es with
  | nil => exact .inr rfl
  | cons e es => exact .inl rfl

/-- What follows an element in a rendered path, after its slash: the next element on. -/
theorem skipSlashes_render_cons (he : IsElem e) :
    skipSlashes (Path.render (e :: es)) = e ++ Path.render es := by
  obtain ⟨c, e, rfl⟩ := List.exists_cons_of_ne_nil he.ne_nil
  rw [Path.render, skipSlashes, if_pos rfl]
  exact skipSlashes_of_head (he.bytes c List.mem_cons_self).1

/-- **`skipelem` reads the first element of a rendered path**, and returns the path of the rest,
its slash skipped. -/
theorem skipelem_render (he : IsElem e) :
    skipelem (Path.render (e :: es)) = some (skipSlashes (Path.render es), elemName e) := by
  obtain ⟨c, e', rfl⟩ := List.exists_cons_of_ne_nil he.ne_nil
  have hc := he.bytes c List.mem_cons_self
  rw [skipelem, skipSlashes_render_cons he, spanElem_append he.bytes (head_render es),
    List.cons_append, List.headD_cons, if_neg hc.2]

/-- With no element left `skipelem` returns `0`. -/
theorem skipelem_render_nil : skipelem (Path.render []) = none := rfl

end Skip

/-! ## 4. The names `skipelem` copies -/

/-- `namecmp` reads the name that `skipelem` copies as the element. -/
theorem nameKey_elemName {e : List UInt8} (he : IsElem e) : nameKey (elemName e) = nameKey e := by
  have hne : ∀ x ∈ e, (fun c : UInt8 => decide (c ≠ 0)) x = true := fun x hx => by
    simpa using (he.bytes x hx).2
  have hall : e.takeWhile (· ≠ 0) = e := List.takeWhile_eq_self_iff.mpr hne
  unfold nameKey elemName
  split_ifs with hlen
  · -- the element is cut to `DIRSIZ` bytes, none of them a `NUL`
    have hcut : (e.take dirsiz).takeWhile (· ≠ 0) = e.take dirsiz :=
      List.takeWhile_eq_self_iff.mpr fun x hx => hne x (List.mem_of_mem_take hx)
    rw [hcut, hall, List.take_take, Nat.min_self]
  · -- the element and its `NUL`
    rw [List.takeWhile_append_of_pos hne, hall]
    simp

/-! ## 5. `namex` is the walk -/

section Walk

variable (T : Nat → INode)

theorem length_le_render (es : List (List UInt8)) : es.length ≤ (Path.render es).length := by
  induction es with
  | nil => exact le_rfl
  | cons e es ih =>
    rw [Path.render, List.length_cons, List.length_cons, List.length_append]
    omega

/-- **The loop of `namei`** on the rest of a rendered path walks its elements. -/
theorem namexLoop_walk : ∀ (es : List (List UInt8)) (fuel ip : Nat) (p name : List UInt8),
    (∀ e ∈ es, IsElem e) → es.length < fuel → skipelem p = skipelem (Path.render es) →
      (namexLoop T false fuel ip p name).map Prod.fst = Path.walk T ip es
  | _, 0, _, _, _, _, hfuel, _ => absurd hfuel (Nat.not_lt_zero _)
  | [], fuel + 1, ip, p, name, _, _, hp => by
    rw [namexLoop, hp, skipelem_render_nil]
    rfl
  | e :: es, fuel + 1, ip, p, name, hes, hfuel, hp => by
    have he := hes e List.mem_cons_self
    rw [namexLoop, hp, skipelem_render he, Option.elim_some, Path.walk]
    by_cases hdir : (T ip).type ≠ tDir
    · -- not a directory: both stop
      rw [if_pos hdir, if_pos hdir]
      rfl
    · -- the element is looked up under the name `skipelem` copied, which `namecmp` reads as it
      rw [if_neg hdir, if_neg hdir, if_neg (by simp), Dir.lookup_congr (nameKey_elemName he)]
      cases Dir.lookup e (T ip).entries 0 with
      | none => rfl
      | some f =>
        rw [Option.elim_some, Option.bind_some]
        exact namexLoop_walk es fuel f.1 _ _ (fun e' he' => hes e' (List.mem_cons_of_mem _ he'))
          (by simpa using hfuel) (skipelem_skipSlashes _)

/-- After an element of a rendered path another one follows: the path `skipelem` returns there
is not at its end. -/
theorem head_skipSlashes_render {es : List (List UInt8)} (hes : ∀ e ∈ es, IsElem e) (hne : es ≠ []) :
    (skipSlashes (Path.render es)).headD 0 ≠ 0 := by
  obtain ⟨e, es, rfl⟩ := List.exists_cons_of_ne_nil hne
  have he := hes e List.mem_cons_self
  obtain ⟨c, e', rfl⟩ := List.exists_cons_of_ne_nil he.ne_nil
  rw [skipSlashes_render_cons he, List.cons_append, List.headD_cons]
  exact (he.bytes c List.mem_cons_self).2

/-- **The loop of `nameiparent`** walks all elements but the last, and returns the directory it
reaches with the last element's name. -/
theorem namexLoop_parent (e : List UInt8) (he : IsElem e) :
    ∀ (es : List (List UInt8)) (fuel ip : Nat) (p name : List UInt8),
    (∀ e ∈ es, IsElem e) → (es ++ [e]).length < fuel → skipelem p = skipelem (Path.render (es ++ [e])) →
      namexLoop T true fuel ip p name =
        (Path.walk T ip es).bind fun d => if (T d).type ≠ tDir then none else some (d, elemName e)
  | _, 0, _, _, _, _, hfuel, _ => absurd hfuel (Nat.not_lt_zero _)
  | [], fuel + 1, ip, p, name, _, _, hp => by
    -- the last element: `nameiparent` stops before its lookup
    rw [namexLoop, hp, List.nil_append, skipelem_render he, Option.elim_some, Path.walk, Option.bind_some]
    by_cases hdir : (T ip).type ≠ tDir
    · rw [if_pos hdir, if_pos hdir]
    · rw [if_neg hdir, if_neg hdir, if_pos ⟨rfl, rfl⟩]
  | e' :: es, fuel + 1, ip, p, name, hes, hfuel, hp => by
    have he' := hes e' List.mem_cons_self
    have hes' : ∀ x ∈ es ++ [e], IsElem x := by
      intro x hx
      rcases List.mem_append.mp hx with hx | hx
      · exact hes x (List.mem_cons_of_mem _ hx)
      · exact he.forall_singleton x hx
    have hmore := head_skipSlashes_render hes' (List.append_ne_nil_of_right_ne_nil _ (List.cons_ne_nil e []))
    rw [namexLoop, hp, List.cons_append, skipelem_render he', Option.elim_some, Path.walk]
    by_cases hdir : (T ip).type ≠ tDir
    · rw [if_pos hdir, if_pos hdir]
      rfl
    · -- an element before the last: looked up, as in `namei`
      rw [if_neg hdir, if_neg hdir, if_neg fun h => hmore h.2, Dir.lookup_congr (nameKey_elemName he')]
      cases Dir.lookup e' (T ip).entries 0 with
      | none => rfl
      | some f =>
        rw [Option.elim_some, Option.bind_some]
        exact namexLoop_parent e he es fuel f.1 _ _ (fun x hx => hes x (List.mem_cons_of_mem _ hx))
          (by simpa using hfuel) (skipelem_skipSlashes _)

/-- **`namei` of an absolute path is the walk of its elements from the root.** -/
theorem namei_render (cwd : Nat) {e : List UInt8} {es : List (List UInt8)}
    (hes : ∀ x ∈ e :: es, IsElem x) :
    namei T cwd (Path.render (e :: es)) = Path.walk T rootino (e :: es) := by
  have hstart : (Path.render (e :: es)).headD 0 = slash := rfl
  rw [namei, namex, if_pos hstart]
  exact namexLoop_walk T (e :: es) _ rootino _ [] hes
    (Nat.lt_succ_of_le (length_le_render _)) rfl

/-- **`namei` of a relative path is the walk of its elements from the current directory.** -/
theorem namei_relative (cwd : Nat) {e : List UInt8} {es : List (List UInt8)}
    (hes : ∀ x ∈ e :: es, IsElem x) :
    namei T cwd (e ++ Path.render es) = Path.walk T cwd (e :: es) := by
  have he := hes e List.mem_cons_self
  obtain ⟨c, e', rfl⟩ := List.exists_cons_of_ne_nil he.ne_nil
  -- the path starts with the element's first byte, not with a slash
  have hstart : ¬((c :: e') ++ Path.render es).headD 0 = slash := (he.bytes c List.mem_cons_self).1
  have hskip : skipelem ((c :: e') ++ Path.render es) = skipelem (Path.render ((c :: e') :: es)) := by
    rw [← skipSlashes_render_cons he, skipelem_skipSlashes]
  have hlen : ((c :: e') :: es).length < ((c :: e') ++ Path.render es).length + 1 := by
    have := length_le_render es
    simp only [List.length_cons, List.cons_append, List.length_append]
    omega
  rw [namei, namex, if_neg hstart]
  exact namexLoop_walk T ((c :: e') :: es) _ cwd _ [] hes hlen hskip

/-- **`nameiparent` of an absolute path walks from the root to the last element's directory**,
and returns it with the name `skipelem` copied of that element; a parent that is not a
directory gives `0`. -/
theorem nameiparent_render (cwd : Nat) (name : List UInt8) {e : List UInt8} {es : List (List UInt8)}
    (hes : ∀ x ∈ es, IsElem x) (he : IsElem e) :
    nameiparent T cwd (Path.render (es ++ [e])) name =
      (Path.walk T rootino es).bind fun d => if (T d).type ≠ tDir then none else some (d, elemName e) := by
  have hstart : (Path.render (es ++ [e])).headD 0 = slash := by
    cases es with
    | nil => rfl
    | cons x es => rfl
  rw [nameiparent, namex, if_pos hstart]
  exact namexLoop_parent T e he es _ rootino _ name hes
    (Nat.lt_succ_of_le (length_le_render _)) rfl

end Walk

/-! ## 6. Small inode tables -/

/-- Inode 1, the root, is a directory with the entry "a" for inode 2; every other inode is a
file. -/
def rootWithA : Nat → INode := fun n =>
  if n = rootino then ⟨tDir, [Dirent.ofLink [97] 2]⟩ else ⟨2, []⟩

/-- Inode 1, the root, is a directory with "." for itself and "a" for inode 2; inode 2 is a
directory with ".." for the root and "b" for inode 3; every other inode is a file. -/
def rootAB : Nat → INode := fun n =>
  if n = rootino then ⟨tDir, [Dirent.ofLink [46] 1, Dirent.ofLink [97] 2]⟩
  else if n = 2 then ⟨tDir, [Dirent.ofLink [46, 46] 1, Dirent.ofLink [98] 3]⟩
  else ⟨2, []⟩

/-- The path "/a/b", through the directory "a"; each lookup passes over the entry before. -/
theorem namei_render_a_b :
    (∀ x ∈ [[(97 : UInt8)], [98]], IsElem x) ∧
      namei rootAB 5 (Path.render [[97], [98]]) = Path.walk rootAB rootino [[97], [98]] :=
  ⟨IsElem.forall_bytes [97, 98] (by simp [slash]),
    namei_render rootAB 5 (IsElem.forall_bytes [97, 98] (by simp [slash]))⟩

example : Path.walk rootAB rootino [[97], [98]] = some 3 := by decide

/-- The relative path "a/b" from the root. -/
theorem namei_relative_a_b :
    (∀ x ∈ [[(97 : UInt8)], [98]], IsElem x) ∧
      namei rootAB rootino ([97] ++ Path.render [[98]]) = Path.walk rootAB rootino [[97], [98]] :=
  ⟨IsElem.forall_bytes [97, 98] (by simp [slash]),
    namei_relative rootAB rootino (IsElem.forall_bytes [97, 98] (by simp [slash]))⟩

/-- The parent of "/a/b": the root, with "b" and its `NUL`. -/
theorem nameiparent_render_a_b :
    (∀ x ∈ [[(97 : UInt8)]], IsElem x) ∧ IsElem [98] ∧
      nameiparent rootWithA 5 (Path.render ([[97]] ++ [[98]])) [] =
        (Path.walk rootWithA rootino [[97]]).bind fun d =>
          if (rootWithA d).type ≠ tDir then none else some (d, elemName [98]) :=
  ⟨(IsElem.singleton (by decide) (by decide)).forall_singleton, IsElem.singleton (by decide) (by decide),
    nameiparent_render rootWithA 5 [] (IsElem.singleton (by decide) (by decide)).forall_singleton
      (IsElem.singleton (by decide) (by decide))⟩

example : Path.walk rootWithA rootino [[97]] = some 2 := by decide

/-! ## 7. On the device

`namex` calls `dirlookup`, which reads the entries from the blocks of the directory. When the
blocks of every directory hold the entries of the inode view (`DiskHolds`), the loop that reads
them is the loop over the view (`namexDiskLoop_eq`), and `namei` on the device is the walk
(`nameiDisk_render`). -/

/-- The loop of `namex` on the device: each element is looked up by `dirlookup` in the blocks of
the directory reached so far, whose type and `dinode` are those `ilock` reads from `ino`. A panic
of `dirlookup` is `none`. -/
def namexDiskLoop (ino : Nat → Nat × DInode) (nameiparent : Bool) :
    Nat → FsState → Nat → List UInt8 → List UInt8 → Option (Nat × List UInt8)
  | 0, _, _, _, _ => none
  | fuel + 1, fs, ip, path, name =>
    (skipelem path).elim (if nameiparent then none else some (ip, name)) fun r =>
      if (ino ip).1 ≠ tDir then none
      else if nameiparent = true ∧ r.1.headD 0 = 0 then some (ip, r.2)
      else (dirlookup fs (ino ip).2 (ino ip).1 r.2).bind fun d =>
        d.1.elim none fun f => namexDiskLoop ino nameiparent fuel d.2.1 f.1 r.1 r.2

/-- `namei(path)` on the device. -/
def nameiDisk (fs : FsState) (ino : Nat → Nat × DInode) (cwd : Nat) (path : List UInt8) : Option Nat :=
  (namexDiskLoop ino false (path.length + 1) fs (if path.headD 0 = slash then rootino else cwd) path
    []).map Prod.fst

/-- The device holds the inode view `T`: each inode has the type `T` gives it, and the blocks of
each directory hold its entries. -/
structure DiskHolds (fs : FsState) (ino : Nat → Nat × DInode) (T : Nat → INode) : Prop where
  type : ∀ n, (ino n).1 = (T n).type
  dir : ∀ n, (T n).type = tDir → Stores fs (ino n).2 (Dir.bytes (T n).entries)

section Device

variable {fs : FsState} {ino : Nat → Nat × DInode} {T : Nat → INode}

/-- **`namex` on the device is `namex` on the inodes it holds**: each `dirlookup` is the search of
the directory's entries, and changes neither the device nor the inode. -/
theorem namexDiskLoop_eq (h : DiskHolds fs ino T) (np : Bool) :
    ∀ fuel ip path name, namexDiskLoop ino np fuel fs ip path name = namexLoop T np fuel ip path name
  | 0, _, _, _ => rfl
  | fuel + 1, ip, path, name => by
    rw [namexDiskLoop, namexLoop]
    cases skipelem path with
    | none => rfl
    | some r =>
      rw [Option.elim_some, Option.elim_some, h.type ip]
      by_cases hdir : (T ip).type = tDir
      · rw [if_neg (not_not.mpr hdir), if_neg (not_not.mpr hdir)]
        split_ifs
        · rfl
        · -- the directory's blocks hold its entries, so `dirlookup` is their search
          rw [hdir, dirlookup_stores (h.dir ip hdir), Option.bind_some]
          cases Dir.lookup r.2 (T ip).entries 0 with
          | none => rfl
          | some f => exact namexDiskLoop_eq h np fuel f.1 r.1 r.2
      · rw [if_pos hdir, if_pos hdir]

end Device

/-- Inode 1, the root, is a directory with "." for itself and "a" for inode 5; every other inode
is a file. -/
def rootDot : Nat → INode := fun n =>
  if n = rootino then ⟨tDir, [Dirent.ofLink [46] 1, Dirent.ofLink [97] 5]⟩ else ⟨2, []⟩

example : Path.walk rootDot rootino [[46], [97]] = some 5 := by decide

end Xv6.Fs
