import Mathlib

/-!
# Little-endian 32-bit words in a byte buffer

A buffer of `4 * n` bytes read as `n` unsigned 32-bit words, least significant byte first:
`getWord` is the load of `((uint *) buf)[j]` on a little-endian machine, and `ofWords` the
buffer an array of `n` such words occupies. The two round trips (`getWord_ofWords`,
`ofWords_getWord`) and the update of one word (`setWord`) are what copying a sector into a
word array, changing an entry and copying it back needs.
-/

set_option autoImplicit false

namespace Bytes

variable {n : Nat}

/-- The position of byte `k` of word `j`. -/
def pos (j : Fin n) (k : Fin 4) : Fin (4 * n) := ⟨4 * j.val + k.val, by omega⟩

/-- Word `j` of the buffer. -/
def getWord (b : Fin (4 * n) → UInt8) (j : Fin n) : Nat :=
  (b (pos j 0)).toNat + 256 * (b (pos j 1)).toNat + 65536 * (b (pos j 2)).toNat +
    16777216 * (b (pos j 3)).toNat

/-- The word that byte `i` belongs to. -/
def wordOf (i : Fin (4 * n)) : Fin n := ⟨i.val / 4, by omega⟩

/-- The buffer holding the words `w`, each truncated to 32 bits. -/
def ofWords (w : Fin n → Nat) : Fin (4 * n) → UInt8 :=
  fun i => UInt8.ofNat (w (wordOf i) / 256 ^ (i.val % 4))

/-- The buffer with word `j` replaced by `v`. -/
def setWord (b : Fin (4 * n) → UInt8) (j : Fin n) (v : Nat) : Fin (4 * n) → UInt8 :=
  ofWords (Function.update (getWord b) j v)

theorem getWord_lt (b : Fin (4 * n) → UInt8) (j : Fin n) : getWord b j < 2 ^ 32 := by
  have h0 := (b (pos j 0)).toNat_lt
  have h1 := (b (pos j 1)).toNat_lt
  have h2 := (b (pos j 2)).toNat_lt
  have h3 := (b (pos j 3)).toNat_lt
  unfold getWord
  omega

@[simp] theorem wordOf_pos (j : Fin n) (k : Fin 4) : wordOf (pos j k) = j := by
  ext
  simp only [wordOf, pos]
  omega

theorem ofWords_pos (w : Fin n → Nat) (j : Fin n) (k : Fin 4) :
    (ofWords w (pos j k)).toNat = w j / 256 ^ k.val % 256 := by
  have hk : (pos j k).val % 4 = k.val := by
    simp only [pos]
    omega
  simp only [ofWords, wordOf_pos, hk, UInt8.toNat_ofNat']

/-- Reading back a word of `ofWords` gives it modulo `2 ^ 32`. -/
theorem getWord_ofWords (w : Fin n → Nat) (j : Fin n) : getWord (ofWords w) j = w j % 2 ^ 32 := by
  rw [getWord, ofWords_pos, ofWords_pos, ofWords_pos, ofWords_pos]
  show w j / 256 ^ 0 % 256 + 256 * (w j / 256 ^ 1 % 256) + 65536 * (w j / 256 ^ 2 % 256) +
    16777216 * (w j / 256 ^ 3 % 256) = w j % 2 ^ 32
  simp only [Nat.reducePow, Nat.div_one]
  omega

/-- Each byte is the digit of its word that `ofWords` stores. -/
theorem ofWords_getWord (b : Fin (4 * n) → UInt8) : ofWords (getWord b) = b := by
  funext i
  -- `i` is byte `i % 4` of word `i / 4`
  have hi : ∀ k : Fin 4, k.val = i.val % 4 → b (pos (wordOf i) k) = b i := by
    intro k hk
    congr 1
    ext
    simp only [pos, wordOf]
    omega
  have h0 : (b (pos (wordOf i) 0)).toNat < 256 := UInt8.toNat_lt _
  have h1 : (b (pos (wordOf i) 1)).toNat < 256 := UInt8.toNat_lt _
  have h2 : (b (pos (wordOf i) 2)).toNat < 256 := UInt8.toNat_lt _
  have h3 : (b (pos (wordOf i) 3)).toNat < 256 := UInt8.toNat_lt _
  apply UInt8.toNat.inj
  simp only [ofWords, getWord, UInt8.toNat_ofNat']
  obtain h | h | h | h : i.val % 4 = 0 ∨ i.val % 4 = 1 ∨ i.val % 4 = 2 ∨ i.val % 4 = 3 := by
    omega
  · rw [h, ← hi 0 h.symm]
    simp only [Nat.reducePow, Nat.div_one]
    omega
  · rw [h, ← hi 1 h.symm]
    simp only [Nat.reducePow]
    omega
  · rw [h, ← hi 2 h.symm]
    simp only [Nat.reducePow]
    omega
  · rw [h, ← hi 3 h.symm]
    simp only [Nat.reducePow]
    omega

/-- `ofWords` keeps each word modulo `2 ^ 32` only. -/
theorem ofWords_congr {w w' : Fin n → Nat} (h : ∀ j, w j % 2 ^ 32 = w' j % 2 ^ 32) :
    ofWords w = ofWords w' := by
  rw [← ofWords_getWord (ofWords w), ← ofWords_getWord (ofWords w')]
  congr 1
  funext j
  rw [getWord_ofWords, getWord_ofWords, h]

@[simp] theorem getWord_setWord_self (b : Fin (4 * n) → UInt8) (j : Fin n) (v : Nat) :
    getWord (setWord b j v) j = v % 2 ^ 32 := by
  rw [setWord, getWord_ofWords, Function.update_self]

theorem getWord_setWord_of_ne (b : Fin (4 * n) → UInt8) {j k : Fin n} (v : Nat) (h : k ≠ j) :
    getWord (setWord b j v) k = getWord b k := by
  rw [setWord, getWord_ofWords, Function.update_of_ne h, Nat.mod_eq_of_lt (getWord_lt b k)]

end Bytes
