import Xv6.Lwp.State
import Xv6.Lib.Word
import Xv6.Lib.Search
import Xv6.Lib.Reach

/-!
# The `used` bitmap of the LWP pool

`static uint used[(MAX_LWPS + 7) / 8]` keeps one bit for each entry of `lwps[]`: entry `idx` is
bit `idx & 7` of word `idx >> 3` (`usedBit`), so only the low byte of each word is used.
`alloclwp` walks the words `i < MAX_LWPS / 8`, skips a word equal to `0xff`, and in any other
takes the first clear bit `j < 8`. It sets that bit and returns entry `(i << 3) | j`.
`dealloclwp` clears bit `idx & 7` of word `idx >> 3`.

`Xv6/Lwp/State.lean` keeps the bitmap as one `Bool` for each entry, and its `alloclwp` takes
the first clear one (`firstClear`). Here the words are modelled as the C has them. Both
searches return the first clear entry (`Search.FirstFalse`), so they agree: the words refine
the entries (`allocBit_refines`, `freeBit_refines`).

Over whole runs the pool is `Pool`: the words, and the entries the callers hold, which are
those `alloclwp` returned that no `dealloclwp` has freed since. In every reachable state the
bits are exactly the held entries, an allocation returns an entry no caller holds and marks
it, and it fails only when every entry is held (`lwp_pool_bits`).
-/

set_option autoImplicit false

namespace Xv6.Lwps

open Search

/-- Bit `idx & 7` of `used[idx >> 3]`: entry `idx` of `lwps[]` is marked used. -/
def usedBit (used : Nat → UInt32) (idx : Nat) : Bool :=
  (used (idx >>> 3)).toNat.testBit (idx &&& 7)

/-- `for(uint j = 0; j < 8; ++j) if((used[i] & (1 << j)) == 0) …`: the first clear bit of `w`
from `j` on, among the next `fuel`. -/
def findClearBit (w : UInt32) (j : UInt32) : Nat → Option UInt32
  | 0 => none
  | fuel + 1 => if w &&& (1 <<< j) = 0 then some j else findClearBit w (j + 1) fuel

/-- `for(uint i = 0; i < MAX_LWPS / 8; ++i)`: from word `i` on, among the next `fuel`, the
first that is not `0xff` and has a clear bit, with that bit. -/
def findClearWord (used : Nat → UInt32) (i : UInt32) : Nat → Option (UInt32 × UInt32)
  | 0 => none
  | fuel + 1 =>
    if used i.toNat = 0xff then findClearWord used (i + 1) fuel
    else
      match findClearBit (used i.toNat) 0 8 with
      | some j => some (i, j)
      | none => findClearWord used (i + 1) fuel

/-- `alloclwp()` on `used`: entry `(i << 3) | j` of the first clear bit, and `used[i] |= 1 << j`;
`none` is its `0`. -/
def allocBit (used : Nat → UInt32) : Option (UInt32 × (Nat → UInt32)) :=
  match findClearWord used 0 (maxLwps / 8) with
  | none => none
  | some (i, j) => some ((i <<< 3) ||| j, Function.update used i.toNat (used i.toNat ||| (1 <<< j)))

/-- `dealloclwp(&lwps[idx])` on `used`: `used[idx >> 3] &= ~(1 << (idx & 7))`. -/
def freeBit (used : Nat → UInt32) (idx : UInt32) : Nat → UInt32 :=
  Function.update used (idx >>> 3).toNat (used (idx >>> 3).toNat &&& ~~~(1 <<< (idx &&& 7)))

/-- The bits as `Xv6/Lwp/State.lean` keeps them, one for each entry. -/
def bitsOf (used : Nat → UInt32) (l : LwpRef) : Bool := usedBit used l.val

/-! ## Entries and bits -/

theorem usedBit_eq (used : Nat → UInt32) (idx : Nat) :
    usedBit used idx = (used (idx / 8)).toNat.testBit (idx % 8) := by
  rw [usedBit, Nat.shiftRight_eq_div_pow, show (7 : Nat) = 2 ^ 3 - 1 from rfl,
    Nat.and_two_pow_sub_one_eq_mod]

/-- Bit `j < 8` of word `i` is entry `8 i + j`. -/
theorem usedBit_word (used : Nat → UInt32) (i : Nat) {j : Nat} (hj : j < 8) :
    usedBit used (8 * i + j) = (used i).toNat.testBit j := by
  rw [usedBit_eq, show (8 * i + j) / 8 = i by omega, show (8 * i + j) % 8 = j by omega]

/-- Setting bit `j` of word `i` marks entry `8 i + j` and no other. -/
theorem usedBit_setBit (used : Nat → UInt32) (i : Nat) {j : UInt32} (hj : j.toNat < 8)
    (k : Nat) :
    usedBit (Function.update used i (used i ||| (1 <<< j))) k =
      (usedBit used k || decide (k = 8 * i + j.toNat)) := by
  rw [usedBit_eq, usedBit_eq]
  by_cases hk : k / 8 = i
  · -- the written word: bit `k % 8` changes exactly when it is `j`
    rw [hk, Function.update_self, Word.testBit_or_bit (by omega)]
    congr 1
    exact decide_eq_decide.mpr (by omega)
  · rw [Function.update_of_ne hk]
    have hne : k ≠ 8 * i + j.toNat := by omega
    simp [hne]

/-- Clearing bit `idx & 7` of word `idx >> 3` unmarks entry `idx` and no other. -/
theorem usedBit_freeBit (used : Nat → UInt32) {idx : Nat} (hidx : idx < maxLwps) (k : Nat) :
    usedBit (freeBit used (UInt32.ofNat idx)) k = (usedBit used k && !decide (k = idx)) := by
  have hval : (UInt32.ofNat idx).toNat = idx :=
    UInt32.toNat_ofNat_of_lt' (lt_of_lt_of_le hidx (by decide))
  have hword : (UInt32.ofNat idx >>> 3).toNat = idx / 8 := by
    rw [Word.toNat_shiftRight (by decide), hval]
    rfl
  have hbit : (UInt32.ofNat idx &&& 7).toNat = idx % 8 := by
    rw [show (7 : UInt32) = ((1 : UInt32) <<< 3) - 1 by decide, Word.toNat_and_mask (by decide),
      hval]
    rfl
  rw [freeBit, hword, usedBit_eq, usedBit_eq]
  by_cases hk : k / 8 = idx / 8
  · -- the written word: bit `k % 8` is cleared exactly when it is `idx % 8`
    rw [hk, Function.update_self, Word.testBit_and_not_bit (by omega), hbit]
    congr 2
    exact decide_eq_decide.mpr (by omega)
  · rw [Function.update_of_ne hk]
    have hne : k ≠ idx := fun h => hk (by rw [h])
    simp [hne]

/-! ## The two loops of `alloclwp` -/

/-- The inner loop finds the first clear bit of word `i`, as an entry. -/
theorem findClearBit_spec (used : Nat → UInt32) (i : Nat) :
    ∀ (fuel : Nat) (j : UInt32), j.toNat + fuel = 8 →
      FirstFalse (usedBit used) (8 * i + j.toNat) (8 * i + 8)
        ((findClearBit (used i) j fuel).map fun j' => 8 * i + j'.toNat)
  | 0, j, h => by
    rw [findClearBit, Option.map_none, show 8 * i + j.toNat = 8 * i + 8 by omega]
    exact FirstFalse.empty
  | fuel + 1, j, h => by
    have hj : j.toNat < 8 := by omega
    have hw := usedBit_word used i hj
    by_cases hz : used i &&& (1 <<< j) = 0
    · rw [findClearBit, if_pos hz, Option.map_some]
      exact FirstFalse.here (by rw [hw]; exact (Word.and_bit_eq_zero_iff (by omega) _).mp hz)
        (by omega)
    · -- bit `j` is set: the loop goes on at `j + 1`
      rw [findClearBit, if_neg hz]
      have hset : usedBit used (8 * i + j.toNat) = true := by
        rw [hw, ← Bool.not_eq_false]
        exact mt (Word.and_bit_eq_zero_iff (by omega) _).mpr hz
      have ih := findClearBit_spec used i fuel (j + 1) (by rw [Word.toNat_add_one (by omega)]; omega)
      rw [Word.toNat_add_one (by omega), ← Nat.add_assoc] at ih
      exact FirstFalse.skip hset ih

theorem findClearBit_lt (w : UInt32) :
    ∀ (fuel : Nat) (j j' : UInt32), j.toNat + fuel = 8 → findClearBit w j fuel = some j' →
      j'.toNat < 8
  | 0, _, _, _, h => by cases h
  | fuel + 1, j, j', hf, h => by
    rw [findClearBit] at h
    split_ifs at h with hz
    · cases h
      omega
    · exact findClearBit_lt w fuel (j + 1) j' (by rw [Word.toNat_add_one (by omega)]; omega) h

/-- A word equal to `0xff` has its eight bits set. -/
theorem usedBit_of_full (used : Nat → UInt32) (i : Nat) (hfull : used i = 0xff) :
    FirstFalse (usedBit used) (8 * i) (8 * i + 8) none := by
  intro m h1 h2
  rw [show m = 8 * i + (m - 8 * i) by omega, usedBit_word used i (by omega), hfull]
  have hlt : m - 8 * i < 8 := by omega
  generalize m - 8 * i = n at hlt
  interval_cases n <;> rfl

/-- The outer loop finds the first clear entry of words `i … i + fuel - 1`. -/
theorem findClearWord_spec (used : Nat → UInt32) :
    ∀ (fuel : Nat) (i : UInt32), i.toNat + fuel ≤ 2 ^ 29 →
      FirstFalse (usedBit used) (8 * i.toNat) (8 * (i.toNat + fuel))
        ((findClearWord used i fuel).map fun r => 8 * r.1.toNat + r.2.toNat) ∧
      ∀ r ∈ findClearWord used i fuel, r.1.toNat < i.toNat + fuel ∧ r.2.toNat < 8
  | 0, i, _ => by
    rw [findClearWord, Option.map_none, Nat.add_zero]
    exact ⟨FirstFalse.empty, fun _ h => by cases h⟩
  | fuel + 1, i, hfit => by
    have hsucc : (i + 1).toNat = i.toNat + 1 := Word.toNat_add_one (by omega)
    have ih := findClearWord_spec used fuel (i + 1) (by omega)
    rw [hsucc] at ih
    -- the rest of the words, after word `i` had no clear bit
    have hnext : FirstFalse (usedBit used) (8 * i.toNat) (8 * i.toNat + 8) none →
        FirstFalse (usedBit used) (8 * i.toNat) (8 * (i.toNat + (fuel + 1)))
          ((findClearWord used (i + 1) fuel).map fun r => 8 * r.1.toNat + r.2.toNat) ∧
        ∀ r ∈ findClearWord used (i + 1) fuel, r.1.toNat < i.toNat + (fuel + 1) ∧ r.2.toNat < 8 :=
      fun hnone => ⟨FirstFalse.append (by omega) hnone
          (by rw [show 8 * i.toNat + 8 = 8 * (i.toNat + 1) by omega,
            show i.toNat + (fuel + 1) = i.toNat + 1 + fuel by omega]; exact ih.1),
        fun r hr => by have := ih.2 r hr; omega⟩
    have hinner := findClearBit_spec used i.toNat 8 0 rfl
    rw [UInt32.toNat_zero, Nat.add_zero] at hinner
    rw [findClearWord]
    split_ifs with hfull
    · exact hnext (usedBit_of_full used i.toNat hfull)
    · cases hb : findClearBit (used i.toNat) 0 8 with
      | some j =>
        -- the first clear bit of word `i` is the answer
        rw [hb, Option.map_some] at hinner
        refine ⟨FirstFalse.extend (by omega) hinner, fun r hr => ?_⟩
        cases hr
        exact ⟨show i.toNat < i.toNat + (fuel + 1) by omega, findClearBit_lt _ 8 0 j rfl hb⟩
      | none =>
        rw [hb, Option.map_none] at hinner
        exact hnext hinner

/-! ## `alloclwp` and `dealloclwp` on the words -/

/-- **`alloclwp` on the words** returns the first clear entry and sets its bit and no other. -/
theorem allocBit_spec (used : Nat → UInt32) :
    FirstFalse (usedBit used) 0 maxLwps ((allocBit used).map fun r => r.1.toNat) ∧
      ∀ idx u, allocBit used = some (idx, u) →
        ∀ k, usedBit u k = (usedBit used k || decide (k = idx.toNat)) := by
  obtain ⟨hfirst, hbound⟩ := findClearWord_spec used (maxLwps / 8) 0 (by decide)
  rw [UInt32.toNat_zero, Nat.zero_add, Nat.mul_zero, show 8 * (maxLwps / 8) = maxLwps from rfl]
    at hfirst
  unfold allocBit
  cases hw : findClearWord used 0 (maxLwps / 8) with
  | none =>
    rw [hw, Option.map_none] at hfirst
    exact ⟨hfirst, fun _ _ h => by cases h⟩
  | some r =>
    obtain ⟨i, j⟩ := r
    obtain ⟨hi, hj⟩ := hbound (i, j) (by rw [hw]; rfl)
    have hidx : ((i <<< 3) ||| j).toNat = 8 * i.toNat + j.toNat :=
      Word.toNat_shiftLeft_three_or (lt_of_lt_of_le hi (by norm_num [maxLwps, nlwps])) hj
    rw [hw, Option.map_some] at hfirst
    refine ⟨by rw [Option.map_some, hidx]; exact hfirst, fun idx u h => ?_⟩
    cases h
    intro k
    rw [hidx, usedBit_setBit used i.toNat hj k]

/-- `alloclwp` fails only when every entry is marked. -/
theorem allocBit_eq_none_iff (used : Nat → UInt32) :
    allocBit used = none ↔ ∀ idx, idx < maxLwps → usedBit used idx = true := by
  have hfirst := (allocBit_spec used).1
  constructor
  · intro h
    rw [h, Option.map_none] at hfirst
    exact fun idx hidx => hfirst idx (Nat.zero_le _) hidx
  · intro hall
    have hnone : FirstFalse (usedBit used) 0 maxLwps none := fun m _ hm => hall m hm
    cases h : allocBit used with
    | none => rfl
    | some r =>
      rw [h, Option.map_some] at hfirst
      cases hfirst.unique hnone

/-! ## The words refine the entries -/

/-- `firstClear` of `Xv6/Lwp/State.lean` finds the first clear entry from `k` on. -/
theorem firstClear_spec {u : LwpRef → Bool} {p : Nat → Bool} (hp : ∀ l : LwpRef, u l = p l.val) :
    ∀ (fuel k : Nat), k + fuel = maxLwps →
      FirstFalse p k maxLwps ((firstClear u k fuel).map Fin.val)
  | 0, k, h => by
    rw [firstClear, Option.map_none, show k = maxLwps by omega]
    exact FirstFalse.empty
  | fuel + 1, k, h => by
    have hk : k < maxLwps := by omega
    rw [firstClear, dif_pos hk]
    cases hb : u ⟨k, hk⟩ with
    | true =>
      rw [if_pos rfl]
      exact FirstFalse.skip (by rw [← hp ⟨k, hk⟩]; exact hb) (firstClear_spec hp fuel (k + 1) (by omega))
    | false =>
      rw [if_neg Bool.false_ne_true, Option.map_some]
      exact FirstFalse.here (by rw [← hp ⟨k, hk⟩]; exact hb) hk

/-- Words whose bits differ from those of `used` only at entry `l`, where they are `b`. -/
theorem bitsOf_eq_update {used u : Nat → UInt32} {l : LwpRef} {b : Bool}
    (h : ∀ k, usedBit u k = if k = l.val then b else usedBit used k) :
    bitsOf u = Function.update (bitsOf used) l b := by
  funext m
  rw [bitsOf, h m.val]
  by_cases hm : m = l
  · rw [if_pos (congrArg Fin.val hm), hm, Function.update_self]
  · rw [if_neg (Fin.val_ne_of_ne hm), Function.update_of_ne hm, bitsOf]

/-- **The words refine the entries**: `alloclwp` on the words fails exactly when `firstClear`
on their bits does, and otherwise returns the entry `firstClear` picks and sets its bit, as
`alloclwp` of `Xv6/Lwp/State.lean` does. -/
theorem allocBit_refines (used : Nat → UInt32) :
    (allocBit used = none ↔ firstClear (bitsOf used) 0 maxLwps = none) ∧
      ∀ idx u, allocBit used = some (idx, u) → ∃ l, firstClear (bitsOf used) 0 maxLwps = some l ∧
        idx.toNat = l.val ∧ bitsOf u = Function.update (bitsOf used) l true := by
  obtain ⟨hword, hset⟩ := allocBit_spec used
  have hentry := @firstClear_spec (bitsOf used) (usedBit used) (fun _ => rfl) maxLwps 0
    (Nat.zero_add _)
  -- both answers are the first clear entry
  have hsame := hword.unique hentry
  refine ⟨⟨fun h => ?_, fun h => ?_⟩, fun idx u h => ?_⟩
  · rw [h, Option.map_none] at hsame
    exact Option.map_eq_none_iff.mp hsame.symm
  · rw [h, Option.map_none] at hsame
    exact Option.map_eq_none_iff.mp hsame
  · rw [h, Option.map_some] at hsame
    obtain ⟨l, hl, hval⟩ := Option.map_eq_some_iff.mp hsame.symm
    refine ⟨l, hl, hval.symm, bitsOf_eq_update fun k => ?_⟩
    rw [hset idx u h k, ← hval]
    by_cases hk : k = l.val <;> simp [hk]

/-- `dealloclwp` on the words clears the entry's bit, as `dealloclwp` of
`Xv6/Lwp/State.lean` does. -/
theorem freeBit_refines (used : Nat → UInt32) (l : LwpRef) :
    bitsOf (freeBit used (UInt32.ofNat l.val)) = Function.update (bitsOf used) l false := by
  refine bitsOf_eq_update fun k => ?_
  rw [usedBit_freeBit used l.isLt]
  by_cases hk : k = l.val <;> simp [hk]

/-! ## Runs of the pool -/

/-- The words, and the entries the callers hold: those `alloclwp` returned that no
`dealloclwp` has freed since. `held` is not kept by the kernel; it is what "allocated" means
for the callers. -/
structure Pool where
  used : Nat → UInt32
  held : Finset Nat

/-- A call on the pool. -/
inductive PoolCall where
  | alloc
  | dealloc (idx : Nat)

/-- One call. A `dealloclwp` of an entry no caller holds is not one the callers make, and is
disabled. -/
def Pool.call (s : Pool) : PoolCall → Option Pool
  | .alloc =>
    match allocBit s.used with
    | none => some s
    | some (idx, u) => some ⟨u, insert idx.toNat s.held⟩
  | .dealloc idx =>
    if idx ∈ s.held then some ⟨freeBit s.used (UInt32.ofNat idx), s.held.erase idx⟩ else none

/-- The zero-filled `used` of a booted kernel, with nothing held. -/
def Pool.init : Pool := ⟨fun _ => 0, ∅⟩

/-- The states of the pool after any sequence of calls. -/
def Pool.Reachable : Pool → Prop := Reach.Reachable Pool.call (fun _ _ => True) Pool.init

/-- The bits are the held entries, and every held entry is one of `lwps[]`. -/
def Pool.Inv (s : Pool) : Prop :=
  (∀ idx ∈ s.held, idx < maxLwps) ∧ ∀ idx, idx < maxLwps → (usedBit s.used idx = true ↔ idx ∈ s.held)

theorem Pool.inv_init : Pool.init.Inv :=
  ⟨fun _ h => absurd h (Finset.notMem_empty _), fun idx _ => by simp [Pool.init, usedBit]⟩

/-- What `alloclwp` returns in a state of the invariant: an entry no caller holds, whose bit
it sets; and it fails only when every entry is held. -/
theorem Pool.Inv.alloc {s : Pool} (hs : s.Inv) :
    (∀ idx u, allocBit s.used = some (idx, u) → idx.toNat < maxLwps ∧ idx.toNat ∉ s.held ∧
      ∀ k, k < maxLwps → (usedBit u k = true ↔ k ∈ insert idx.toNat s.held)) ∧
    (allocBit s.used = none ↔ ∀ idx, idx < maxLwps → idx ∈ s.held) := by
  obtain ⟨hfirst, hset⟩ := allocBit_spec s.used
  refine ⟨fun idx u h => ?_, ?_⟩
  · rw [h, Option.map_some] at hfirst
    obtain ⟨-, hlt, hclear, -⟩ := hfirst
    refine ⟨hlt, fun hheld => ?_, fun k hk => ?_⟩
    · rw [(hs.2 _ hlt).mpr hheld] at hclear
      cases hclear
    · rw [hset idx u h k, Finset.mem_insert, Bool.or_eq_true, hs.2 k hk, decide_eq_true_iff]
      exact or_comm
  · rw [allocBit_eq_none_iff]
    exact forall₂_congr fun idx hidx => hs.2 idx hidx

/-- **One call keeps the invariant.** -/
theorem Pool.Inv.call {s s' : Pool} (hs : s.Inv) {c : PoolCall} (h : s.call c = some s') :
    s'.Inv := by
  cases c with
  | alloc =>
    rw [Pool.call] at h
    cases ha : allocBit s.used with
    | none =>
      rw [ha] at h
      cases h
      exact hs
    | some r =>
      obtain ⟨idx, u⟩ := r
      rw [ha] at h
      cases h
      obtain ⟨hlt, -, hbits⟩ := hs.alloc.1 idx u ha
      refine ⟨fun k hk => ?_, hbits⟩
      rcases Finset.mem_insert.mp hk with rfl | hk
      · exact hlt
      · exact hs.1 k hk
  | dealloc idx =>
    rw [Pool.call] at h
    split_ifs at h with hheld
    cases h
    have hlt := hs.1 idx hheld
    refine ⟨fun k hk => hs.1 k (Finset.mem_of_mem_erase hk), fun k hk => ?_⟩
    -- only the freed entry's bit is cleared
    rw [usedBit_freeBit s.used hlt k, Finset.mem_erase, Bool.and_eq_true, hs.2 k hk]
    simp [and_comm]

theorem lwp_pool_bits {s : Pool} (hs : s.Reachable) :
    (∀ idx, idx < maxLwps → (usedBit s.used idx = true ↔ idx ∈ s.held)) ∧
    (∀ idx u, allocBit s.used = some (idx, u) → idx.toNat < maxLwps ∧ idx.toNat ∉ s.held ∧
      ∀ k, k < maxLwps → (usedBit u k = true ↔ k ∈ insert idx.toNat s.held)) ∧
    (allocBit s.used = none ↔ ∀ idx, idx < maxLwps → idx ∈ s.held) := by
  have hinv : s.Inv := Reach.Reachable.rec_inv Pool.inv_init (fun _ _ _ hi he _ => hi.call he) hs
  exact ⟨hinv.2, hinv.alloc⟩

/-- Two allocations and the free of the first leave entry `1` held, and the theorem holds
there. -/
theorem lwp_pool_bits_after_free :
    ∃ s : Pool, Reach.run Pool.call Pool.init [.alloc, .alloc, .dealloc 0] = some s ∧
      s.held = {1} ∧ s.Reachable ∧
      (∀ idx, idx < maxLwps → (usedBit s.used idx = true ↔ idx ∈ s.held)) ∧
      (∀ idx u, allocBit s.used = some (idx, u) → idx.toNat < maxLwps ∧ idx.toNat ∉ s.held ∧
        ∀ k, k < maxLwps → (usedBit u k = true ↔ k ∈ insert idx.toNat s.held)) ∧
      (allocBit s.used = none ↔ ∀ idx, idx < maxLwps → idx ∈ s.held) := by
  obtain ⟨s, hrun, hheld⟩ : ∃ s, Reach.run Pool.call Pool.init [.alloc, .alloc, .dealloc 0] =
      some s ∧ s.held = {1} := ⟨_, rfl, by decide⟩
  have hs : s.Reachable := Reach.Reachable.run (fun _ _ => trivial) Reach.Reachable.init hrun
  exact ⟨s, hrun, hheld, hs, lwp_pool_bits hs⟩

end Xv6.Lwps
