import Xv6.Fs.Trunc
import Xv6.Fs.Bmap
import Xv6.Lib.PartialImage

/-!
# The block tree of an inode, by position

A position is a slot of `addrs` and the entries followed from the block it holds: none below a
direct slot, up to one, two or three below the indirect roots. `nodeOf` is the block at a
position when every pointer on its path is set. Listed over all positions in the order of
`treeBlocks`, these are exactly the inode's blocks (`treeBlocks_eq_filterMap`), so the
block-tree invariant says that distinct positions hold distinct blocks (`TreeInv.inj`). The
walk of `bmap` for file block `bn` ends at the position `dataPos bn` (`lookup_eq_nodeOf`), a
position with the full number of entries below its slot and a different one for each `bn`:
under the invariant, distinct file blocks live in distinct disk blocks (`TreeInv.lookup_inj`).

A write to the disk leaves the block at a position when it leaves the entries its path reads
(`nodeOf_congr`): this is the frame that the allocation lemmas of `bmap` use.
-/

set_option autoImplicit false

namespace Xv6.Fs

/-! ## Positions -/

/-- A position of an inode's block tree: slot `slot` of `addrs`, then the entries `path`
followed from the block it holds. -/
structure Pos where
  slot : AddrIdx
  path : List (Fin nindirect)
  deriving DecidableEq

/-- The levels of index blocks below slot `k`: none below a direct slot. -/
def depth (k : AddrIdx) : Nat := if k.val < ndirect then 0 else k.val - ndirect + 1

/-- A position that can hold a block: at most `depth` entries below its slot. -/
def Pos.Valid (pos : Pos) : Prop := pos.path.length ≤ depth pos.slot

instance Pos.decValid (pos : Pos) : Decidable pos.Valid :=
  inferInstanceAs (Decidable (pos.path.length ≤ depth pos.slot))

/-- The ancestor of a position `i` entries below its slot. -/
def Pos.take (pos : Pos) (i : Nat) : Pos := ⟨pos.slot, pos.path.take i⟩

/-- The position below `q` through entry `j` of its block. -/
def Pos.child (q : Pos) (j : Fin nindirect) : Pos := ⟨q.slot, q.path ++ [j]⟩

/-- The block reached from block `c` by following the entries `p`, every pointer on the way
set. -/
def walk (disk : Nat → Block) (c : Nat) : List (Fin nindirect) → Option Nat
  | [] => some c
  | j :: p => (present ((disk c).word j)).bind fun x => walk disk x p

/-- The block at a position of the tree of `ip`. -/
def nodeOf (disk : Nat → Block) (ip : DInode) (pos : Pos) : Option Nat :=
  (present (ip.addrs pos.slot)).bind fun a => walk disk a pos.path

/-- The paths to the blocks below an index block at the top of `level` levels, in the order
`below` lists the blocks. -/
def pathsBelow : Nat → List (List (Fin nindirect))
  | l + 2 => (List.finRange nindirect).flatMap fun j => (pathsBelow (l + 1)).map (j :: ·) ++ [[j]]
  | _ => (List.finRange nindirect).map fun j => [j]

/-- The paths below a slot with `level` levels under it, in the order of `slotBlocks`. -/
def slotPaths (level : Nat) : List (List (Fin nindirect)) :=
  (if level = 0 then [] else pathsBelow level) ++ [[]]

/-- Every position, in the order of `treeBlocks`. -/
def positions : List Pos :=
  (List.finRange ndirect).flatMap (fun i => (slotPaths 0).map fun p => ⟨dirIdx i, p⟩) ++
    (List.finRange 3).flatMap fun k => (slotPaths (k.val + 1)).map fun p => ⟨indIdx k, p⟩

/-- The position that the walk of `bmap` reaches for file block `bn`, below `MAXFILE`. -/
def dataPos (bn : Nat) : Option Pos :=
  if h0 : bn < ndirect then some ⟨dirIdx ⟨bn, h0⟩, []⟩
  else
    let bn := bn - ndirect
    if h1 : bn < nindirect then some ⟨indIdx 0, [⟨bn, h1⟩]⟩
    else
      let bn := bn - nindirect
      if h2 : bn < ndindirect then
        some ⟨indIdx 1, [⟨bn / nindirect, div_lt_nindirect h2⟩, ⟨bn % nindirect, mod_lt_nindirect bn⟩]⟩
      else
        let bn := bn - ndindirect
        if h3 : bn < ntindirect then
          some ⟨indIdx 2, [⟨bn / ndindirect, div_lt_ndindirect h3⟩,
            ⟨bn % ndindirect / nindirect, mod_div_lt_nindirect bn⟩, ⟨bn % nindirect, mod_lt_nindirect bn⟩]⟩
        else none

/-- The first file block below tree root `m`. -/
def rootBase : Nat → Nat
  | 0 => ndirect
  | 1 => ndirect + nindirect
  | _ => ndirect + nindirect + ndindirect

theorem rootBase_two : rootBase 2 = ndirect + nindirect + ndindirect := rfl

/-- The file block that a data position holds: the inverse of `dataPos`, reading the entries
as the digits of the block number in base `NINDIRECT`. -/
def Pos.blockNo (d : Pos) : Nat :=
  if d.slot.val < ndirect then d.slot.val
  else rootBase (d.slot.val - ndirect) + d.path.foldl (fun n j => n * nindirect + j.val) 0

/-! ## Slots -/

theorem slot_cases (k : AddrIdx) : (∃ i, k = dirIdx i) ∨ ∃ m, k = indIdx m := by
  by_cases hk : k.val < ndirect
  · exact .inl ⟨⟨k.val, hk⟩, rfl⟩
  · refine .inr ⟨⟨k.val - ndirect, ?_⟩, ?_⟩
    · have := k.isLt
      omega
    · ext
      simp only [indIdx]
      omega

@[simp] theorem depth_dirIdx (i : Fin ndirect) : depth (dirIdx i) = 0 := by
  simp [depth, dirIdx]

@[simp] theorem depth_indIdx (m : Fin 3) : depth (indIdx m) = m.val + 1 := by
  simp [depth, indIdx, ndirect]

theorem dirIdx_ne_indIdx (i : Fin ndirect) (m : Fin 3) : dirIdx i ≠ indIdx m := by
  intro h
  have := congrArg Fin.val h
  simp only [dirIdx, indIdx] at this
  omega

theorem indIdx_injective : Function.Injective indIdx := by
  intro m m' h
  have := congrArg Fin.val h
  simp only [indIdx] at this
  exact Fin.ext (by omega)

/-! ## The walk -/

@[simp] theorem walk_nil (disk : Nat → Block) (c : Nat) : walk disk c [] = some c := rfl

@[simp] theorem walk_cons (disk : Nat → Block) (c : Nat) (j : Fin nindirect)
    (p : List (Fin nindirect)) :
    walk disk c (j :: p) = (present ((disk c).word j)).bind fun x => walk disk x p := rfl

theorem walk_append (disk : Nat → Block) : ∀ (c : Nat) (p q : List (Fin nindirect)),
    walk disk c (p ++ q) = (walk disk c p).bind fun x => walk disk x q
  | c, [], q => rfl
  | c, j :: p, q => by
    simp only [List.cons_append, walk_cons, Option.bind_assoc]
    congr 1
    funext x
    exact walk_append disk x p q

theorem nodeOf_take (disk : Nat → Block) (ip : DInode) (pos : Pos) (i : Nat) :
    nodeOf disk ip (pos.take i) = (present (ip.addrs pos.slot)).bind fun a =>
      walk disk a (pos.path.take i) := rfl

/-- **The frame of a walk**: a disk that agrees on every entry the walk reads gives the same
walk. -/
theorem walk_congr {disk disk' : Nat → Block} : ∀ {a : Nat} {p : List (Fin nindirect)},
    (∀ i (hi : i < p.length) y, walk disk a (p.take i) = some y →
      (disk' y).word p[i] = (disk y).word p[i]) →
    walk disk' a p = walk disk a p
  | _, [], _ => rfl
  | a, j :: p, h => by
    -- the entry read at the top, then the walk below it
    have h0 : (disk' a).word j = (disk a).word j := h 0 (by simp) a rfl
    simp only [walk_cons, h0]
    cases hx : present ((disk a).word j) with
    | none => rfl
    | some x =>
      refine walk_congr fun i hi y hy => ?_
      have := h (i + 1) (by simp [hi]) y
      simp only [List.take_succ_cons, walk_cons, List.getElem_cons_succ, hx,
        Option.bind_some] at this
      exact this hy

/-- The frame of a position: the block there is the same on a disk that agrees on the entries
its path reads. -/
theorem nodeOf_congr {disk disk' : Nat → Block} {ip : DInode} {pos : Pos}
    (h : ∀ i (hi : i < pos.path.length) y, nodeOf disk ip (pos.take i) = some y →
      (disk' y).word pos.path[i] = (disk y).word pos.path[i]) :
    nodeOf disk' ip pos = nodeOf disk ip pos := by
  unfold nodeOf
  cases ha : present (ip.addrs pos.slot) with
  | none => rfl
  | some a =>
    refine walk_congr fun i hi y hy => h i hi y ?_
    rw [nodeOf_take, ha]
    exact hy

theorem Pos.Valid.take {pos : Pos} (h : pos.Valid) (i : Nat) : (pos.take i).Valid := by
  unfold Pos.Valid Pos.take at *
  simp only [List.length_take]
  omega

/-- Below a position, the walk goes on from its block. -/
theorem nodeOf_append (disk : Nat → Block) (ip : DInode) (q : Pos) (r : List (Fin nindirect)) :
    nodeOf disk ip ⟨q.slot, q.path ++ r⟩ = (nodeOf disk ip q).bind fun c => walk disk c r := by
  simp only [nodeOf, walk_append, Option.bind_assoc]

theorem nodeOf_child (disk : Nat → Block) (ip : DInode) (q : Pos) (j : Fin nindirect) :
    nodeOf disk ip (q.child j) = (nodeOf disk ip q).bind fun c => present ((disk c).word j) := by
  rw [Pos.child, nodeOf_append]
  simp

theorem Pos.Valid.of_child {q : Pos} {j : Fin nindirect} (h : (q.child j).Valid) : q.Valid := by
  unfold Pos.Valid Pos.child at *
  simp only [List.length_append, List.length_singleton] at h
  omega

/-- A position with a child is an index position: fewer entries than `depth` below its slot. -/
theorem Pos.Valid.length_lt_of_child {q : Pos} {j : Fin nindirect} (h : (q.child j).Valid) :
    q.path.length < depth q.slot := by
  unfold Pos.Valid Pos.child at *
  simp only [List.length_append, List.length_singleton] at h
  omega

/-! ## The tree is the blocks at the positions -/

theorem entries_eq_filterMap (disk : Nat → Block) (b : Nat) :
    entries disk b = (List.finRange nindirect).filterMap fun j => present ((disk b).word j) := by
  unfold entries
  induction List.finRange nindirect with
  | nil => rfl
  | cons j J ih =>
    rw [List.map_cons, List.filter_cons, List.filterMap_cons, ih]
    by_cases hj : (disk b).word j = 0 <;> simp [hj, present]

/-- **`below` lists the blocks that the walks from its block reach**, along `pathsBelow`. -/
theorem below_eq_filterMap (disk : Nat → Block) : ∀ (level b : Nat),
    below disk level b = (pathsBelow level).filterMap (walk disk b)
  | l + 2, b => by
    rw [below, pathsBelow, entries_eq_filterMap, PartialImage.flatMap_filterMap,
      List.filterMap_flatMap]
    refine List.flatMap_congr fun j _ => ?_
    rw [List.filterMap_append, List.filterMap_map]
    -- the entry `j` of `b` is null, or leads to a block `x` with its own tree below
    cases hx : present ((disk b).word j) with
    | none => simp [hx, Function.comp_def]
    | some x => simp [hx, Function.comp_def, below_eq_filterMap disk (l + 1) x]
  | 0, b => by
    simp [below, pathsBelow, entries_eq_filterMap, List.filterMap_map, Function.comp_def]
  | 1, b => by
    simp [below, pathsBelow, entries_eq_filterMap, List.filterMap_map, Function.comp_def]

theorem slotBlocks_eq_filterMap (disk : Nat → Block) (level a : Nat) :
    slotBlocks disk level a =
      (slotPaths level).filterMap fun p => (present a).bind fun c => walk disk c p := by
  unfold slotBlocks slotPaths
  by_cases ha : a = 0
  · simp [ha, present]
  · have hp : present a = some a := if_neg ha
    simp only [if_neg ha, hp, Option.bind_some, List.filterMap_append]
    split_ifs
    · simp
    · simp [below_eq_filterMap]

/-- **The blocks of an inode are the blocks at its positions**, in order. -/
theorem treeBlocks_eq_filterMap (disk : Nat → Block) (ip : DInode) :
    treeBlocks disk ip = positions.filterMap (nodeOf disk ip) := by
  unfold treeBlocks positions
  rw [List.filterMap_append, List.filterMap_flatMap, List.filterMap_flatMap]
  congr 1
  · refine List.flatMap_congr fun i _ => ?_
    rw [List.filterMap_map, slotBlocks_eq_filterMap]
    rfl
  · refine List.flatMap_congr fun k _ => ?_
    rw [List.filterMap_map, slotBlocks_eq_filterMap]
    rfl

/-! ## Which positions are listed -/

theorem mem_pathsBelow {p : List (Fin nindirect)} :
    ∀ {l : Nat}, p ∈ pathsBelow (l + 1) ↔ p ≠ [] ∧ p.length ≤ l + 1
  | 0 => by
    rcases p with _ | ⟨j, _ | ⟨j', p⟩⟩ <;> simp [pathsBelow]
  | l + 1 => by
    rw [pathsBelow]
    rcases p with _ | ⟨j, p⟩
    · simp
    · simp only [List.mem_flatMap, List.mem_finRange, true_and, List.mem_append, List.mem_map,
        List.mem_singleton, List.cons.injEq, ne_eq, reduceCtorEq, not_false_eq_true,
        List.length_cons, Nat.add_le_add_iff_right]
      constructor
      · rintro ⟨j', ⟨p', hp', rfl, rfl⟩ | ⟨rfl, rfl⟩⟩
        · exact (mem_pathsBelow.mp hp').2
        · simp
      · intro hp
        refine ⟨j, ?_⟩
        rcases p with _ | ⟨j'', p⟩
        · exact .inr ⟨rfl, rfl⟩
        · exact .inl ⟨_, mem_pathsBelow.mpr ⟨by simp, hp⟩, rfl, rfl⟩

theorem mem_slotPaths {p : List (Fin nindirect)} {level : Nat} :
    p ∈ slotPaths level ↔ p.length ≤ level := by
  unfold slotPaths
  rcases level with _ | l
  · simp
  · rw [if_neg (Nat.succ_ne_zero l), List.mem_append, mem_pathsBelow]
    rcases p with _ | ⟨j, p⟩ <;> simp

/-- **The listed positions are the valid ones.** -/
theorem mem_positions {pos : Pos} : pos ∈ positions ↔ pos.Valid := by
  obtain ⟨k, p⟩ := pos
  unfold positions Pos.Valid
  simp only [List.mem_append, List.mem_flatMap, List.mem_finRange, true_and, List.mem_map,
    Pos.mk.injEq, mem_slotPaths]
  rcases slot_cases k with ⟨i, rfl⟩ | ⟨m, rfl⟩
  · simp only [depth_dirIdx]
    constructor
    · rintro (⟨i', p', hp', hi, rfl⟩ | ⟨m, p', -, hm, -⟩)
      · exact hp'
      · exact absurd hm.symm (dirIdx_ne_indIdx i m)
    · intro hp
      exact .inl ⟨i, p, hp, rfl, rfl⟩
  · simp only [depth_indIdx]
    constructor
    · rintro (⟨i, p', -, hi, -⟩ | ⟨m', p', hp', hm, rfl⟩)
      · exact absurd hi (dirIdx_ne_indIdx i m)
      · rwa [← indIdx_injective hm]
    · intro hp
      exact .inr ⟨m, p, hp, rfl, rfl⟩

theorem pathsBelow_nodup : ∀ level, (pathsBelow level).Nodup
  | l + 2 => by
    rw [pathsBelow]
    refine List.nodup_flatMap.mpr ⟨fun j _ => ?_, ?_⟩
    · -- the paths through `j`, then `[j]` itself, which is not one of them
      refine List.nodup_append.mpr ⟨(pathsBelow_nodup (l + 1)).map (List.cons_injective), by simp, ?_⟩
      simp only [List.mem_map, List.mem_singleton]
      rintro _ ⟨p, hp, rfl⟩ _ rfl h
      exact (mem_pathsBelow.mp hp).1 (List.cons.inj h).2
    · -- paths through different entries differ in their first entry
      refine (List.nodup_finRange _).pairwise_of_forall_ne fun j _ j' _ hne => ?_
      simp only [Function.onFun, List.disjoint_left, List.mem_append, List.mem_map,
        List.mem_singleton]
      rintro _ (⟨p, -, rfl⟩ | rfl) (⟨p', -, h⟩ | h)
      · exact hne (List.cons.inj h).1.symm
      · exact hne (List.cons.inj h).1
      · exact hne (List.cons.inj h).1.symm
      · exact hne (List.cons.inj h).1
  | 0 => (List.nodup_finRange _).map fun _ _ h => (List.cons.inj h).1
  | 1 => (List.nodup_finRange _).map fun _ _ h => (List.cons.inj h).1

theorem slotPaths_nodup (level : Nat) : (slotPaths level).Nodup := by
  unfold slotPaths
  refine List.nodup_append.mpr ⟨?_, by simp, ?_⟩
  · split_ifs
    · simp
    · exact pathsBelow_nodup level
  · -- `[]` is not below a slot's block
    intro p hp q hq
    rw [List.mem_singleton] at hq
    subst hq
    split_ifs at hp with h0
    · simp at hp
    · obtain ⟨l, rfl⟩ := Nat.exists_eq_succ_of_ne_zero h0
      exact (mem_pathsBelow.mp hp).1

/-- Positions of one slot, along a list of its paths without duplicates. -/
theorem nodup_map_slot (k : AddrIdx) {P : List (List (Fin nindirect))} (hP : P.Nodup) :
    (P.map fun p => (⟨k, p⟩ : Pos)).Nodup :=
  hP.map fun _ _ h => (Pos.mk.inj h).2

theorem positions_nodup : positions.Nodup := by
  unfold positions
  refine List.nodup_append.mpr ⟨?_, ?_, ?_⟩
  · refine List.nodup_flatMap.mpr ⟨fun i _ => nodup_map_slot _ (slotPaths_nodup 0), ?_⟩
    refine (List.nodup_finRange _).pairwise_of_forall_ne fun i _ i' _ hne => ?_
    simp only [Function.onFun, List.disjoint_left, List.mem_map]
    rintro _ ⟨p, -, rfl⟩ ⟨p', -, h⟩
    exact hne (dirIdx_injective (Pos.mk.inj h).1).symm
  · refine List.nodup_flatMap.mpr ⟨fun m _ => nodup_map_slot _ (slotPaths_nodup _), ?_⟩
    refine (List.nodup_finRange _).pairwise_of_forall_ne fun m _ m' _ hne => ?_
    simp only [Function.onFun, List.disjoint_left, List.mem_map]
    rintro _ ⟨p, -, rfl⟩ ⟨p', -, h⟩
    exact hne (indIdx_injective (Pos.mk.inj h).1).symm
  · simp only [List.mem_flatMap, List.mem_map]
    rintro _ ⟨i, -, p, -, rfl⟩ _ ⟨m, -, p', -, rfl⟩ h
    exact dirIdx_ne_indIdx i m (Pos.mk.inj h).1

/-! ## Data positions -/

/-- **`lookup` reads the block at the data position.** -/
theorem lookup_eq_nodeOf (disk : Nat → Block) (ip : DInode) (bn : Nat) :
    lookup disk ip bn = (dataPos bn).bind (nodeOf disk ip) := by
  unfold lookup dataPos
  dsimp only
  split_ifs <;> simp [nodeOf]

/-- A data position has the full number of entries below its slot. -/
theorem dataPos_full {bn : Nat} {d : Pos} (h : dataPos bn = some d) :
    d.path.length = depth d.slot := by
  unfold dataPos at h
  dsimp only at h
  split_ifs at h <;> obtain rfl := Option.some.inj h <;> simp

theorem dataPos_valid {bn : Nat} {d : Pos} (h : dataPos bn = some d) : d.Valid :=
  le_of_eq (dataPos_full h)

theorem blockNo_root (m : Fin 3) (p : List (Fin nindirect)) :
    Pos.blockNo ⟨indIdx m, p⟩ = rootBase m.val + p.foldl (fun n j => n * nindirect + j.val) 0 := by
  have hm : ¬ (indIdx m).val < ndirect := by simp [indIdx]
  rw [Pos.blockNo, if_neg hm]
  simp [indIdx]

theorem blockNo_dataPos {bn : Nat} {d : Pos} (h : dataPos bn = some d) : d.blockNo = bn := by
  unfold dataPos at h
  dsimp only at h
  split_ifs at h with h0 h1 h2 h3 <;> obtain rfl := Option.some.inj h
  · simp [Pos.blockNo, dirIdx, h0]
  -- below a root, the entries are the digits of `bn` past the root's first block (the folds
  -- are unrolled by `rw`: `simp` on them builds a term the kernel cannot check)
  · rw [blockNo_root, List.foldl_cons, List.foldl_nil, Fin.val_zero, rootBase]
    dsimp only
    omega
  · rw [blockNo_root, List.foldl_cons, List.foldl_cons, List.foldl_nil, Fin.val_one, rootBase]
    dsimp only
    simp only [ndirect, nindirect, bsize] at h0 h1 ⊢
    omega
  · rw [blockNo_root, List.foldl_cons, List.foldl_cons, List.foldl_cons, List.foldl_nil,
      Fin.val_two, rootBase_two]
    dsimp only
    simp only [ndirect, nindirect, ndindirect, bsize] at h0 h1 h2 ⊢
    omega

theorem dataPos_inj {bn bn' : Nat} {d : Pos} (h : dataPos bn = some d) (h' : dataPos bn' = some d) :
    bn = bn' :=
  (blockNo_dataPos h).symm.trans (blockNo_dataPos h')

/-! ## The block-tree invariant by position -/

theorem mem_treeBlocks {disk : Nat → Block} {ip : DInode} {b : Nat} :
    b ∈ treeBlocks disk ip ↔ ∃ pos, pos.Valid ∧ nodeOf disk ip pos = some b := by
  simp [treeBlocks_eq_filterMap, List.mem_filterMap, mem_positions]

section Inv

variable {fs : FsState} {ip : DInode}

/-- **Distinct positions hold distinct blocks.** -/
theorem TreeInv.inj (h : TreeInv fs ip) {pos pos' : Pos} (hv : pos.Valid) (hv' : pos'.Valid)
    {b : Nat} (hb : nodeOf fs.disk ip pos = some b) (hb' : nodeOf fs.disk ip pos' = some b) :
    pos = pos' := by
  have hnd := h.nodup
  rw [treeBlocks_eq_filterMap] at hnd
  exact PartialImage.eq_of_nodup_filterMap positions_nodup hnd (mem_positions.mpr hv)
    (mem_positions.mpr hv') hb hb'

theorem TreeInv.used_of_node (h : TreeInv fs ip) {pos : Pos} (hv : pos.Valid) {b : Nat}
    (hb : nodeOf fs.disk ip pos = some b) : fs.used b = true :=
  h.used b (mem_treeBlocks.mpr ⟨pos, hv, hb⟩)

/-- A block the bitmap marks free is at no position. -/
theorem TreeInv.node_ne_of_free (h : TreeInv fs ip) {b : Nat} (hb : fs.used b = false)
    {pos : Pos} (hv : pos.Valid) : nodeOf fs.disk ip pos ≠ some b := fun he => by
  rw [h.used_of_node hv he] at hb
  cases hb

/-- The ancestors of a position hold other blocks than it. -/
theorem TreeInv.take_ne (h : TreeInv fs ip) {q : Pos} (hq : q.Valid) {c : Nat}
    (hc : nodeOf fs.disk ip q = some c) {i : Nat} (hi : i < q.path.length) :
    nodeOf fs.disk ip (q.take i) ≠ some c := fun he => by
  have hlen := congrArg (fun p : Pos => p.path.length) (h.inj (hq.take i) hq he hc)
  simp only [Pos.take, List.length_take] at hlen
  omega

/-- **A free block is read by no walk**: zeroing it or writing it leaves every position. -/
theorem TreeInv.nodeOf_update_free (h : TreeInv fs ip) {b : Nat} (hb : fs.used b = false)
    (v : Block) {pos : Pos} (hv : pos.Valid) :
    nodeOf (Function.update fs.disk b v) ip pos = nodeOf fs.disk ip pos :=
  nodeOf_congr fun i _ y hy => by
    have hyb : y ≠ b := by
      rintro rfl
      exact h.node_ne_of_free hb (hv.take i) hy
    rw [Function.update_of_ne hyb]

/-- An ancestor on the path of a data position holds another block than the data position. -/
theorem TreeInv.take_ne_data (h : TreeInv fs ip) {bn : Nat} {d : Pos} (hd : dataPos bn = some d)
    {x : Nat} (hx : nodeOf fs.disk ip d = some x) {pos : Pos} (hv : pos.Valid) {i : Nat}
    (hi : i < pos.path.length) : nodeOf fs.disk ip (pos.take i) ≠ some x := fun he => by
  have hpd := h.inj (hv.take i) (dataPos_valid hd) he hx
  have hlen := congrArg (fun q : Pos => q.path.length) hpd
  have hslot := congrArg Pos.slot hpd
  simp only [Pos.take, List.length_take] at hlen hslot
  have hfull := dataPos_full hd
  have hvalid : pos.path.length ≤ depth pos.slot := hv
  rw [← hslot] at hfull
  omega

/-- **Distinct file blocks are in distinct disk blocks**: `bmap` never maps two file blocks
of a well-formed inode to one disk block. -/
theorem TreeInv.lookup_inj (h : TreeInv fs ip) {bn bn' x : Nat} (hx : lookup fs.disk ip bn = some x)
    (hx' : lookup fs.disk ip bn' = some x) : bn = bn' := by
  rw [lookup_eq_nodeOf] at hx hx'
  obtain ⟨d, hd, hdx⟩ := Option.bind_eq_some_iff.mp hx
  obtain ⟨d', hd', hdx'⟩ := Option.bind_eq_some_iff.mp hx'
  have := h.inj (dataPos_valid hd) (dataPos_valid hd') hdx hdx'
  subst this
  exact dataPos_inj hd hd'

end Inv

end Xv6.Fs
