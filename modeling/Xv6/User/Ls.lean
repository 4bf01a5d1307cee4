import Xv6.Lib.Word

/-!
# `ls.c` — `fmtsz`

`fmtsz(sz)` renders a size for `ls`. It picks the unit (`G`, `M`, `K` or none) with the
largest of `sz >> 30`, `sz >> 20`, `sz >> 10` that is not zero, shifts `sz` down by it and
keeps one more digit, `rest`, of what the shift dropped. It then counts the characters it
needs, `malloc`s exactly that many, and fills the buffer from its end: `NUL`, `B`, the unit,
`rest` behind a `.`, and the digits of the shifted size, each through `result[--num_chars]`.

The buffer is `Buf`: the size allocated, `num_chars`, and the bytes written so far. A write at
`num_chars = 0` wraps the `uint` and lands outside the buffer; it is `none`. `Buf.Holds b w`
says that the bytes from `num_chars` on are `w` and the others are unwritten. Every write puts
one character in front of `w` (`Buf.put_holds`), and the digit loop puts `Nat.toDigits 10` of
its number there (`putDigits_spec`).

`fmtsz_spec` says what the function does for every `sz`. It writes exactly the bytes it
allocated, the last one `NUL`, and the text is `fmtszText`. In numbers (`fmtszScale_eq`,
`fmtszText_eq`) that is the decimal digits of `sz / 2^(10k)` for the largest `k ≤ 3` with
`2^(10k) ≤ sz`, then `.` and `rest` when the shift drops bits, then the unit and `B`. But `rest`
is `(sz % 2^(10k)) / 10 % 10`, the tens digit of the remainder in decimal, and not its first
digit in tenths of the unit (`fmtsz_tenths_digit`). The branch where `malloc` returns `0`
writes nothing and is left out.
-/

set_option autoImplicit false

namespace Xv6.Ls

/-- The buffer `fmtsz` fills: `size` bytes allocated, `pos` the current `num_chars`, and the
bytes written so far. -/
structure Buf where
  size : Nat
  pos : Nat
  cells : Nat → Option Char

/-- `result[--num_chars] = c`; at `num_chars = 0` the index wraps past the buffer. -/
def Buf.put (b : Buf) (c : Char) : Option Buf :=
  if b.pos = 0 then none
  else some ⟨b.size, b.pos - 1, Function.update b.cells (b.pos - 1) (some c)⟩

/-- The character `'0' + d`. -/
def digitOf (d : Nat) : Char := Char.ofNat ('0'.toNat + d)

/-- One branch of the `if` chain: unit `u` at a shift of `k` bits. It gives the unit, whether
a rest is printed, the rest digit and the shifted size. -/
def scaleBy (sz : UInt32) (k : UInt32) (u : Char) : Option Char × Bool × Nat × UInt32 :=
  (some u, decide (sz &&& ((1 <<< k) - 1) ≠ 0), ((sz &&& ((1 <<< k) - 1)) / 10 % 10).toNat,
    sz >>> k)

/-- The `if(sz >> 30) … else if(sz >> 20) … else if(sz >> 10)` chain. -/
def fmtszScale (sz : UInt32) : Option Char × Bool × Nat × UInt32 :=
  if sz >>> 30 ≠ 0 then scaleBy sz 30 'G'
  else if sz >>> 20 ≠ 0 then scaleBy sz 20 'M'
  else if sz >>> 10 ≠ 0 then scaleBy sz 10 'K'
  else (none, false, 0, sz)

/-- `t = sz; do ++num_chars; while((t /= 10));`, with `fuel` turns. -/
def countDigits : Nat → UInt32 → Nat → Nat
  | 0, _, n => n
  | fuel + 1, t, n => if t / 10 = 0 then n + 1 else countDigits fuel (t / 10) (n + 1)

/-- `t = sz; do { result[--num_chars] = '0' + (t % 10); } while((t /= 10));`, with `fuel`
turns. -/
def putDigits : Nat → UInt32 → Buf → Option Buf
  | 0, _, b => some b
  | fuel + 1, t, b =>
    (b.put (digitOf (t % 10).toNat)).bind fun b =>
      if t / 10 = 0 then some b else putDigits fuel (t / 10) b

/-- `if(unit) result[--num_chars] = unit;` -/
def putUnit (b : Buf) : Option Char → Option Buf
  | some u => b.put u
  | none => some b

/-- `if(need_to_print_rest){ result[--num_chars] = '0' + rest; result[--num_chars] = '.'; }` -/
def putRest (b : Buf) (need : Bool) (rest : Nat) : Option Buf :=
  if need then (b.put (digitOf rest)).bind fun b => b.put '.' else some b

/-- `fmtsz(sz)`, when `malloc` succeeds: the buffer after the last write. A `uint` has at most
ten digits, so both digit loops get ten turns. -/
def fmtsz (sz : UInt32) : Option Buf :=
  let sc := fmtszScale sz
  let n := countDigits 10 sc.2.2.2 2 + (if sc.1.isSome then 1 else 0) + (if sc.2.1 then 2 else 0)
  let b : Buf := ⟨n, n, fun _ => none⟩
  (b.put (Char.ofNat 0)).bind fun b =>
  (b.put 'B').bind fun b =>
  (putUnit b sc.1).bind fun b =>
  (putRest b sc.2.1 sc.2.2.1).bind fun b =>
  putDigits 10 sc.2.2.2 b

/-! ## The buffer -/

/-- The bytes from `pos` on are `w`, and none before `pos` is written. -/
def Buf.Holds (b : Buf) (w : List Char) : Prop :=
  b.pos ≤ b.size ∧ w.length = b.size - b.pos ∧ ∀ i, b.cells i = if b.pos ≤ i then w[i - b.pos]? else none

theorem Buf.holds_fresh (n : Nat) : (⟨n, n, fun _ => none⟩ : Buf).Holds [] :=
  ⟨le_rfl, by simp, fun i => by split_ifs <;> simp⟩

/-- **One write** puts its character in front of what is written. -/
theorem Buf.put_holds {b : Buf} {w : List Char} (h : b.Holds w) (hpos : 0 < b.pos) (c : Char) :
    ∃ b', b.put c = some b' ∧ b'.size = b.size ∧ b'.pos = b.pos - 1 ∧ b'.Holds (c :: w) := by
  obtain ⟨hle, hlen, hcells⟩ := h
  refine ⟨_, if_neg (by omega), rfl, rfl, by simp only; omega, by simp only [List.length_cons]; omega,
    fun i => ?_⟩
  simp only
  by_cases hi : i = b.pos - 1
  · subst hi
    rw [Function.update_self, if_pos le_rfl, Nat.sub_self, List.getElem?_cons_zero]
  · rw [Function.update_of_ne hi, hcells i]
    by_cases hp : b.pos ≤ i
    · -- past the new byte the old ones, one further from `pos - 1`
      rw [if_pos hp, if_pos (by omega), show i - (b.pos - 1) = i - b.pos + 1 by omega,
        List.getElem?_cons_succ]
    · rw [if_neg hp, if_neg (by omega)]

/-! ## The digit loops -/

theorem digitOf_eq {d : Nat} (hd : d < 10) : digitOf d = Nat.digitChar d := by
  have h0 : '0'.toNat = 48 := rfl
  have hv : Nat.isValidChar ('0'.toNat + d) := Or.inl (by omega)
  apply Char.toNat_inj.mp
  rw [Nat.toNat_digitChar_of_lt_ten hd, digitOf, Char.toNat_ofNat, if_pos hv, h0]

/-- The loops stop when `t / 10` is `0`, that is at the last digit. -/
theorem div_ten_eq_zero_iff (t : UInt32) : t / 10 = 0 ↔ t.toNat < 10 := by
  rw [← UInt32.toNat_inj, UInt32.toNat_div, UInt32.toNat_zero, Nat.div_eq_zero_iff]
  simp

/-- The number of digits of `t`, as the loops see `t`. -/
theorem toDigits_uint (t : UInt32) :
    Nat.toDigits 10 t.toNat = if t / 10 = 0 then [Nat.digitChar (t % 10).toNat]
      else Nat.toDigits 10 (t / 10).toNat ++ [Nat.digitChar (t % 10).toNat] := by
  have h10 : (10 : UInt32).toNat = 10 := rfl
  rw [Nat.toDigits_eq_if (by decide), UInt32.toNat_div, UInt32.toNat_mod, h10]
  by_cases ht : t.toNat < 10
  · rw [if_pos ht, if_pos ((div_ten_eq_zero_iff t).mpr ht), Nat.mod_eq_of_lt ht]
  · rw [if_neg ht, if_neg (mt (div_ten_eq_zero_iff t).mp ht)]

/-- **`do ++num_chars; while((t /= 10))`** counts the digits of `t`. -/
theorem countDigits_eq : ∀ (fuel : Nat) (t : UInt32) (n : Nat),
    (Nat.toDigits 10 t.toNat).length ≤ fuel →
      countDigits fuel t n = n + (Nat.toDigits 10 t.toNat).length
  | 0, t, _, hf => absurd hf (by have := @Nat.length_toDigits_pos 10 t.toNat; omega)
  | fuel + 1, t, n, hf => by
    rw [toDigits_uint t] at hf ⊢
    by_cases ht : t / 10 = 0
    · simp [countDigits, ht]
    · rw [if_neg ht] at hf ⊢
      simp only [countDigits, ht, if_false]
      rw [List.length_append] at hf ⊢
      rw [countDigits_eq fuel (t / 10) (n + 1) (by rw [List.length_singleton] at hf; omega)]
      simp
      omega

/-- **The fill loop** writes the digits of `t` in front of what is written. -/
theorem putDigits_spec : ∀ (fuel : Nat) (t : UInt32) (b : Buf) (w : List Char), b.Holds w →
    (Nat.toDigits 10 t.toNat).length ≤ fuel → (Nat.toDigits 10 t.toNat).length ≤ b.pos →
    ∃ b', putDigits fuel t b = some b' ∧ b'.size = b.size ∧
      b'.pos = b.pos - (Nat.toDigits 10 t.toNat).length ∧ b'.Holds (Nat.toDigits 10 t.toNat ++ w)
  | 0, t, _, _, _, hf, _ => absurd hf (by have := @Nat.length_toDigits_pos 10 t.toNat; omega)
  | fuel + 1, t, b, w, h, hf, hp => by
    have hd : (t % 10).toNat < 10 := by rw [UInt32.toNat_mod]; exact Nat.mod_lt _ (by decide)
    have hpos : 0 < b.pos := by have := @Nat.length_toDigits_pos 10 t.toNat; omega
    obtain ⟨b₁, hput, hs₁, hp₁, h₁⟩ := b.put_holds h hpos (digitOf (t % 10).toNat)
    rw [digitOf_eq hd] at h₁
    rw [toDigits_uint t] at hf hp ⊢
    by_cases ht : t / 10 = 0
    · -- the last digit
      rw [if_pos ht] at hf hp ⊢
      refine ⟨b₁, by rw [putDigits, hput, Option.bind_some, if_pos ht], hs₁, by simp [hp₁],
        by simpa using h₁⟩
    · -- the lower digit goes last, the others in front of it
      rw [if_neg ht] at hf hp ⊢
      rw [List.length_append, List.length_singleton] at hf hp
      obtain ⟨b', hrest, hs', hp', h'⟩ := putDigits_spec fuel (t / 10) b₁ _ h₁ (by omega)
        (by omega)
      refine ⟨b', by rw [putDigits, hput, Option.bind_some, if_neg ht, hrest], hs'.trans hs₁, ?_, ?_⟩
      · rw [hp', hp₁, List.length_append, List.length_singleton]
        omega
      · simpa using h'

/-! ## The `if` chain -/

/-- The exponent of the largest unit, of `K`, `M` and `G`, that fits in `sz`: the largest `k ≤ 3`
with `2^(10k) ≤ sz`. -/
def scaleExp (sz : Nat) : Nat :=
  if 2 ^ 30 ≤ sz then 3 else if 2 ^ 20 ≤ sz then 2 else if 2 ^ 10 ≤ sz then 1 else 0

/-- The unit letter of the exponent `k`. -/
def unitLetter : Nat → Option Char
  | 0 => none
  | 1 => some 'K'
  | 2 => some 'M'
  | _ => some 'G'

/-- One branch of the chain in numbers. -/
theorem scaleBy_eq (sz : UInt32) {k : UInt32} (hk : k.toNat < 32) (u : Char) :
    scaleBy sz k u = (some u, decide (sz.toNat % 2 ^ k.toNat ≠ 0), sz.toNat % 2 ^ k.toNat / 10 % 10,
      UInt32.ofNat (sz.toNat / 2 ^ k.toNat)) := by
  have hrest : ((sz &&& ((1 <<< k) - 1)) / 10 % 10).toNat = sz.toNat % 2 ^ k.toNat / 10 % 10 := by
    rw [UInt32.toNat_mod, UInt32.toNat_div, Word.toNat_and_mask hk]
    rfl
  have hne : (sz &&& ((1 <<< k) - 1) ≠ 0) ↔ sz.toNat % 2 ^ k.toNat ≠ 0 := by
    rw [Ne, ← UInt32.toNat_inj, Word.toNat_and_mask hk, UInt32.toNat_zero]
  have hshift : sz >>> k = UInt32.ofNat (sz.toNat / 2 ^ k.toNat) := by
    rw [← UInt32.toNat_inj, Word.toNat_shiftRight hk,
      UInt32.toNat_ofNat_of_lt' (lt_of_le_of_lt (Nat.div_le_self _ _) sz.toNat_lt)]
  simp only [scaleBy, hrest, hne, hshift]

/-- **The chain picks the largest unit that fits**: it shifts by `10k` for the largest `k ≤ 3` with
`2^(10k) ≤ sz`, prints a rest exactly when the shift drops bits, and takes the rest digit
from the dropped bits as `/ 10 % 10`. -/
theorem fmtszScale_eq (sz : UInt32) :
    fmtszScale sz = (unitLetter (scaleExp sz.toNat),
      decide (sz.toNat % 2 ^ (10 * scaleExp sz.toNat) ≠ 0),
      sz.toNat % 2 ^ (10 * scaleExp sz.toNat) / 10 % 10,
      UInt32.ofNat (sz.toNat / 2 ^ (10 * scaleExp sz.toNat))) := by
  have h30 := @Word.shiftRight_ne_zero_iff 30 (by decide) sz
  have h20 := @Word.shiftRight_ne_zero_iff 20 (by decide) sz
  have h10 := @Word.shiftRight_ne_zero_iff 10 (by decide) sz
  unfold fmtszScale scaleExp
  by_cases hg : 2 ^ 30 ≤ sz.toNat
  · rw [if_pos (h30.mpr hg), if_pos hg, scaleBy_eq sz (by decide)]
    rfl
  by_cases hm : 2 ^ 20 ≤ sz.toNat
  · rw [if_neg (mt h30.mp hg), if_pos (h20.mpr hm), if_neg hg, if_pos hm, scaleBy_eq sz (by decide)]
    rfl
  by_cases hkb : 2 ^ 10 ≤ sz.toNat
  · rw [if_neg (mt h30.mp hg), if_neg (mt h20.mp hm), if_pos (h10.mpr hkb), if_neg hg, if_neg hm,
      if_pos hkb, scaleBy_eq sz (by decide)]
    rfl
  · -- below `1K` nothing is shifted and no rest is printed
    rw [if_neg (mt h30.mp hg), if_neg (mt h20.mp hm), if_neg (mt h10.mp hkb), if_neg hg, if_neg hm,
      if_neg hkb]
    simp [unitLetter, Nat.mod_one]

/-! ## `fmtsz` -/

theorem putUnit_holds {b : Buf} {w : List Char} (h : b.Holds w) (u : Option Char)
    (hpos : u.toList.length ≤ b.pos) :
    ∃ b', putUnit b u = some b' ∧ b'.size = b.size ∧ b'.pos = b.pos - u.toList.length ∧
      b'.Holds (u.toList ++ w) := by
  cases u with
  | none => exact ⟨b, rfl, rfl, rfl, h⟩
  | some u =>
    obtain ⟨b', hput, hs, hp, h'⟩ := b.put_holds h (by simp at hpos; omega) u
    exact ⟨b', hput, hs, hp, h'⟩

/-- What `putRest` writes: `.` and the rest digit, when a rest is printed. -/
def restText (need : Bool) (rest : Nat) : List Char :=
  if need then ['.', digitOf rest] else []

theorem putRest_holds {b : Buf} {w : List Char} (h : b.Holds w) (need : Bool) (rest : Nat)
    (hpos : (restText need rest).length ≤ b.pos) :
    ∃ b', putRest b need rest = some b' ∧ b'.size = b.size ∧
      b'.pos = b.pos - (restText need rest).length ∧ b'.Holds (restText need rest ++ w) := by
  cases need with
  | false => exact ⟨b, rfl, rfl, rfl, h⟩
  | true =>
    -- the digit first, then the `.` in front of it
    simp only [restText, if_true, List.length_cons, List.length_nil] at hpos ⊢
    obtain ⟨b₁, hput₁, hs₁, hp₁, h₁⟩ := b.put_holds h (by omega) (digitOf rest)
    obtain ⟨b₂, hput₂, hs₂, hp₂, h₂⟩ := b₁.put_holds h₁ (by omega) '.'
    refine ⟨b₂, ?_, hs₂.trans hs₁, by omega, h₂⟩
    simp [putRest, hput₁, hput₂]

/-- The text `fmtsz` renders, from the values the `if` chain computes: the digits of the
shifted size, `.` and the rest digit when a rest is printed, the unit, and `B`. -/
def fmtszText (sz : UInt32) : List Char :=
  let sc := fmtszScale sz
  Nat.toDigits 10 sc.2.2.2.toNat ++ restText sc.2.1 sc.2.2.1 ++ sc.1.toList ++ ['B']

/-- The text in numbers: the digits of `sz / 2^(10k)`, the rest part, the unit and `B`. -/
theorem fmtszText_eq (sz : UInt32) :
    fmtszText sz = Nat.toDigits 10 (sz.toNat / 2 ^ (10 * scaleExp sz.toNat)) ++
      restText (decide (sz.toNat % 2 ^ (10 * scaleExp sz.toNat) ≠ 0))
        (sz.toNat % 2 ^ (10 * scaleExp sz.toNat) / 10 % 10) ++
      (unitLetter (scaleExp sz.toNat)).toList ++ ['B'] := by
  rw [fmtszText, fmtszScale_eq,
    UInt32.toNat_ofNat_of_lt' (lt_of_le_of_lt (Nat.div_le_self _ _) sz.toNat_lt)]

/-- **`fmtsz` fills exactly what it allocates**: every byte of the buffer is written once, the
last one `NUL`, and the text before it is `fmtszText`. -/
theorem fmtsz_spec (sz : UInt32) :
    ∃ b, fmtsz sz = some b ∧ b.pos = 0 ∧ b.size = (fmtszText sz).length + 1 ∧
      b.Holds (fmtszText sz ++ [Char.ofNat 0]) := by
  unfold fmtsz fmtszText
  generalize fmtszScale sz = sc
  obtain ⟨u, need, rest, t⟩ := sc
  dsimp only
  -- a `uint` is below `10^10`, so ten turns of either digit loop are enough
  have hlen : (Nat.toDigits 10 t.toNat).length ≤ 10 :=
    Nat.toDigits_length 10 t.toNat 10 (by decide) (by have := t.toNat_lt; omega)
  have hu : (if u.isSome then 1 else 0) = u.toList.length := by cases u <;> rfl
  have hr : (if need then 2 else 0) = (restText need rest).length := by cases need <;> rfl
  rw [countDigits_eq 10 t 2 hlen, hu, hr]
  set n := 2 + (Nat.toDigits 10 t.toNat).length + u.toList.length + (restText need rest).length
    with hn
  -- the writes from the end of the buffer: `NUL`, `B`, the unit, the rest and the digits
  obtain ⟨b₁, h₁, hs₁, hp₁, hh₁⟩ := Buf.put_holds (Buf.holds_fresh n) (by dsimp only; omega)
    (Char.ofNat 0)
  dsimp only at hp₁
  obtain ⟨b₂, h₂, hs₂, hp₂, hh₂⟩ := b₁.put_holds hh₁ (by omega) 'B'
  obtain ⟨b₃, h₃, hs₃, hp₃, hh₃⟩ := putUnit_holds hh₂ u (by omega)
  obtain ⟨b₄, h₄, hs₄, hp₄, hh₄⟩ := putRest_holds hh₃ need rest (by omega)
  obtain ⟨b₅, h₅, hs₅, hp₅, hh₅⟩ := putDigits_spec 10 t b₄ _ hh₄ hlen (by omega)
  refine ⟨b₅, by rw [h₁, Option.bind_some, h₂, Option.bind_some, h₃, Option.bind_some, h₄,
    Option.bind_some, h₅], by omega, ?_, ?_⟩
  · rw [hs₅, hs₄, hs₃, hs₂, hs₁]
    simp only [List.length_append, List.length_singleton]
    omega
  · simpa using hh₅

/-- **The rest digit is not the tenths digit.** `1536` bytes are `1.5` KiB, but `fmtsz` renders
`1.1KB`: the rest is `512`, and `512 / 10 % 10 = 1`. -/
theorem fmtsz_tenths_digit :
    (∃ b, fmtsz 1536 = some b ∧ b.pos = 0 ∧ b.Holds ['1', '.', '1', 'K', 'B', Char.ofNat 0]) ∧
      10 * (1536 % 2 ^ 10) / 2 ^ 10 = 5 := by
  obtain ⟨b, hb, hp, -, hh⟩ := fmtsz_spec 1536
  have htext : fmtszText 1536 = ['1', '.', '1', 'K', 'B'] := by decide
  rw [htext] at hh
  exact ⟨⟨b, hb, hp, hh⟩, by norm_num⟩

end Xv6.Ls
