import Mathlib.Data.Nat.Size
import Mathlib.Order.Bounds.Basic
import Mathlib.Tactic.Set
import Mathlib.Algebra.Order.Ring.Nat
import Mathlib.Algebra.Group.Int

/-!
# The integer puzzles of `bits.c`

A `long` is a `BitVec 64`: `+` and `<<` wrap, as the puzzles assume (`ezThreeFourths` must
duplicate `x * 3L / 4L` with its overflow), `x >> n` is `sshiftRight` (the lab's machine shifts
arithmetically), and `!x` is `logicalNot` (`1` for zero, `0` otherwise; an `int` that C widens
back to a `long`). The puzzles shift by constants below 64, but for `bitMask`, whose counts are
its arguments: a shift by a count outside `0 .. 63` is undefined in C, and `shiftLeftLong` gives
`none` there. In `isTmin` the overflow of `x + x` is the whole test; there signed overflow is
taken as C has it, undefined (`addLong`), which is also how gcc reads it.

What each function is asked to compute is stated beside it, over every input:

* `bitMatch x y = ~(x ^ y)`, the bits where `x` and `y` agree;
* `anyOddBit x` is `1` exactly when an odd-numbered bit of `x` is set;
* `ezThreeFourths x` is C's `x * 3L / 4L`: the wrapped product, divided rounding toward zero;
* `bitMask highbit lowbit` is defined exactly when both counts are below 64, as the source
  assumes, and then sets exactly the bits from `lowbit` to `highbit`;
* `howManyBits x` is the least `n` such that `x` fits in `n` bits of two's complement
  (`howManyBits_isLeast`), by a binary search on the magnitude (`howManyBits_step`);
* `hexAllLetters x` is `1` exactly when the or of the hex digits of `x` is `0xa`
  (`hexAllLetters_eq`), which is not "every digit is a letter" as its comment asks;
* `isNegative` tests `x < 0`; `isTmin` never reports `-2^63`: for `|x| < 2^62` it returns `0`,
  and for every other `x`, `-2^63` included, `x + x` overflows (`isTmin_eq`);
* `integerLog2 x = ⌊log₂ x⌋` for `x > 0`, by a binary search on the exponent
  (`integerLog2_step`).
-/

namespace SystemsLabs.Bits

/-- C's `!x` on a `long`: `1` when `x` is zero, else `0`. -/
def logicalNot (x : BitVec 64) : BitVec 64 := if x = 0 then 1 else 0

theorem logicalNot_eq (v : BitVec 64) : logicalNot v = if v.toNat = 0 then 1 else 0 := by
  by_cases hv : v = 0
  · subst hv; rfl
  · rw [logicalNot, if_neg hv,
      if_neg (show v.toNat ≠ 0 from fun h => hv (BitVec.eq_of_toNat_eq h))]

theorem logicalNot_logicalNot (v : BitVec 64) :
    logicalNot (logicalNot v) = if v.toNat = 0 then 0 else 1 := by
  rw [logicalNot_eq v]; split_ifs <;> rfl

/-! ## Bits and arithmetic shifts -/

theorem toNat_eq_zero_iff_getLsbD {v : BitVec 64} :
    v.toNat = 0 ↔ ∀ i < 64, v.getLsbD i = false := by
  constructor
  · intro h i _; rw [show v = 0#64 from BitVec.eq_of_toNat_eq (by simpa using h)]; simp
  · intro h
    have : v = 0#64 := BitVec.eq_of_getLsbD_eq fun i => by rw [h i i.isLt]; simp
    simp [this]

theorem toInt_bounds (x : BitVec 64) : -2 ^ 63 ≤ x.toInt ∧ x.toInt < 2 ^ 63 := by
  have hx := x.isLt
  have hm := BitVec.msb_eq_decide x
  rw [BitVec.toInt_eq_msb_cond]
  cases h : x.msb <;> simp only [h, if_true, if_false, Bool.false_eq_true] at hm ⊢ <;>
    simp at hm <;> omega

/-- `x >> 63` copies the sign bit into every bit. -/
theorem sshiftRight_63 (x : BitVec 64) :
    x.sshiftRight 63 = if x.msb then BitVec.allOnes 64 else 0#64 := by
  apply BitVec.eq_of_getLsbD_eq
  intro i
  have hi := i.isLt
  have h63 : x.getLsbD 63 = x.msb := (BitVec.msb_eq_getLsbD_last x).symm
  rw [BitVec.getLsbD_sshiftRight]
  by_cases h0 : (i : Nat) = 0
  · rw [h0, if_pos (by decide), Nat.add_zero, h63]; cases x.msb <;> simp
  · rw [if_neg (by omega)]
    cases x.msb <;> simp only [Bool.false_eq_true, if_false, if_true, BitVec.getLsbD_allOnes,
      BitVec.getLsbD_zero, Bool.and_false, Bool.and_true]
    simp

theorem toInt_sshiftRight_two (x : BitVec 64) : (x.sshiftRight 2).toInt = x.toInt / 4 := by
  rw [BitVec.sshiftRight_eq, BitVec.toInt_ofInt, Int.shiftRight_eq_div_pow, Int.bmod_def]
  have := toInt_bounds x
  split <;> omega

/-- On a nonnegative `long` the arithmetic shift is the logical one. -/
theorem toNat_sshiftRight_of_lt {x : BitVec 64} (hx : x.toNat < 2 ^ 63) (n : Nat) :
    (x.sshiftRight n).toNat = x.toNat >>> n := by
  rw [BitVec.sshiftRight_eq_of_msb_false, BitVec.toNat_ushiftRight]
  rw [BitVec.msb_eq_decide]; simpa using hx

/-- The bit `!!(x >> s) << j` of the two searches, on a nonnegative `x`: `k = 2 ^ j` when bits
of `x` remain above `s`. -/
theorem toNat_searchBit {z : BitVec 64} (h63 : z.toNat < 2 ^ 63) {j k : Nat} (hk : 2 ^ j = k)
    (hj : j < 64) (s : Nat) :
    (logicalNot (logicalNot (z.sshiftRight s)) <<< j).toNat =
      if z.toNat >>> s = 0 then 0 else k := by
  rw [logicalNot_logicalNot, toNat_sshiftRight_of_lt h63, ← hk]
  split_ifs
  · simp
  · rw [BitVec.toNat_shiftLeft, Nat.shiftLeft_eq, show (1 : BitVec 64).toNat = 1 from rfl,
      Nat.one_mul]
    exact Nat.mod_eq_of_lt (Nat.pow_lt_pow_right (by decide) hj)

/-! ## `bitMatch`, `anyOddBit`, `bitMask` -/

/-- `bitMatch`: the mask of the bits where `x` and `y` match, with `~` and `&` only. -/
def bitMatch (x y : BitVec 64) : BitVec 64 := ~~~(~~~(x &&& y) &&& ~~~(~~~x &&& ~~~y))

theorem bitMatch_eq (x y : BitVec 64) : bitMatch x y = ~~~(x ^^^ y) := by
  apply BitVec.eq_of_getLsbD_eq
  intro i
  simp only [bitMatch, BitVec.getLsbD_not, BitVec.getLsbD_and, BitVec.getLsbD_xor, i.isLt,
    decide_True, Bool.true_and]
  cases x.getLsbD i <;> cases y.getLsbD i <;> rfl

/-- `anyOddBit`: the mask `0xAA…A` is built from the byte `0xAA` by three doublings. -/
def anyOddBit (x : BitVec 64) : BitVec 64 :=
  let slice : BitVec 64 := 0xAA
  let mask := slice
  let mask := (mask <<< 8) + slice
  let mask := (mask <<< 16) + mask
  let mask := (mask <<< 32) + mask
  logicalNot (logicalNot (x &&& mask))

theorem anyOddBit_eq (x : BitVec 64) :
    anyOddBit x = if ∃ i < 64, i % 2 = 1 ∧ x.getLsbD i then 1 else 0 := by
  have hmask : ∀ i < 64, (0xAAAAAAAAAAAAAAAA#64).getLsbD i = decide (i % 2 = 1) := by decide
  have hall : (∀ i < 64, (x &&& 0xAAAAAAAAAAAAAAAA#64).getLsbD i = false) ↔
      ¬ ∃ i < 64, i % 2 = 1 ∧ x.getLsbD i := by
    simp only [not_exists, not_and]
    refine forall₂_congr fun i hi => ?_
    rw [BitVec.getLsbD_and, hmask i hi]
    cases x.getLsbD i <;> simp
  show logicalNot (logicalNot (x &&& 0xAAAAAAAAAAAAAAAA#64)) = _
  simp only [logicalNot_logicalNot, toNat_eq_zero_iff_getLsbD, hall, ite_not]

/-- C's `x << n` on `long`s: undefined (`none`) unless `0 ≤ n < 64`. -/
def shiftLeftLong (x n : BitVec 64) : Option (BitVec 64) :=
  if n.toNat < 64 then some (x <<< n.toNat) else none

/-- `bitMask`: ones from `lowbit` up, masked by ones up to `highbit`. -/
def bitMask (highbit lowbit : BitVec 64) : Option (BitVec 64) := do
  let ones := ~~~0#64
  let left ← shiftLeftLong ones lowbit
  let right := (← shiftLeftLong (ones <<< 1) highbit) ^^^ ones
  return left &&& right

/-- The bits of the mask when both shifts are defined. -/
theorem getLsbD_mask {highbit lowbit : Nat} (hh : highbit < 64) (i : Nat) :
    ((~~~0#64 <<< lowbit) &&& (((~~~0#64 <<< 1) <<< highbit) ^^^ ~~~0#64)).getLsbD i =
      decide (lowbit ≤ i ∧ i ≤ highbit) := by
  simp only [BitVec.getLsbD_and, BitVec.getLsbD_shiftLeft, BitVec.getLsbD_xor,
    BitVec.getLsbD_not, BitVec.getLsbD_zero]
  by_cases hi : i < 64
  · by_cases hl : lowbit ≤ i <;> by_cases hu : i ≤ highbit <;> simp [hi, hl, hu] <;> omega
  · simp [hi]; omega

theorem bitMask_eq (highbit lowbit : BitVec 64) :
    bitMask highbit lowbit = if highbit.toNat < 64 ∧ lowbit.toNat < 64 then
      some ((~~~0#64 <<< lowbit.toNat) &&& (((~~~0#64 <<< 1) <<< highbit.toNat) ^^^ ~~~0#64))
    else none := by
  by_cases hl : lowbit.toNat < 64 <;> by_cases hh : highbit.toNat < 64 <;>
    simp [bitMask, shiftLeftLong, hl, hh]

example : bitMask 5 3 = some 0x38#64 := by decide

/-! ## `ezThreeFourths` -/

/-- `ezThreeFourths`: `3x`, plus `3` when it is negative, shifted right by two. -/
def ezThreeFourths (x : BitVec 64) : BitVec 64 :=
  let multiplied := (x <<< 1) + x
  let mask := multiplied.sshiftRight 63 &&& 3
  (multiplied + mask).sshiftRight 2

/-- Adding `3` to a negative `3x` before the arithmetic shift turns its rounding down into C's
rounding toward zero; the product wraps as `x * 3L` does. -/
theorem ezThreeFourths_toInt (x : BitVec 64) :
    (ezThreeFourths x).toInt = (x * 3).toInt.tdiv 4 := by
  have hm : (x <<< 1) + x = x * 3 := by
    apply BitVec.eq_of_toNat_eq
    simp only [BitVec.toNat_add, BitVec.toNat_shiftLeft, BitVec.toNat_mul, Nat.shiftLeft_eq]
    simp
    omega
  have hdef : ezThreeFourths x = (x * 3 + ((x * 3).sshiftRight 63 &&& 3)).sshiftRight 2 := by
    rw [ezThreeFourths, hm]
  rw [hdef, toInt_sshiftRight_two, sshiftRight_63]
  have hb := toInt_bounds (x * 3)
  have hc := BitVec.toInt_eq_msb_cond (x * 3)
  cases h : (x * 3).msb <;> simp only [h, if_true, if_false, Bool.false_eq_true] at hc ⊢
  · rw [BitVec.zero_and, BitVec.add_zero, Int.tdiv_eq_ediv (by omega) (by decide)]
  · have hlt : (x * 3).toInt < 0 := by have := (x * 3).isLt; omega
    rw [BitVec.allOnes_and, BitVec.toInt_add, Int.bmod_def,
      show BitVec.toInt (3 : BitVec 64) = 3 from rfl, ← Int.neg_neg ((x * 3).toInt),
      Int.neg_tdiv, Int.tdiv_eq_ediv (by omega) (by decide)]
    split <;> omega

/-! ## `howManyBits` -/

/-- Shifting out `k` bits of a number that keeps some takes `k` off its size. -/
theorem size_eq_add_size_shiftRight {y k : Nat} (h : y >>> k ≠ 0) :
    y.size = k + (y >>> k).size := by
  rw [Nat.shiftRight_eq_div_pow] at h ⊢
  have hs : 0 < (y / 2 ^ k).size := Nat.size_pos.2 (Nat.pos_of_ne_zero h)
  apply le_antisymm
  · rw [Nat.size_le, Nat.pow_add, Nat.mul_comm, ← Nat.div_lt_iff_lt_mul (Nat.two_pow_pos k)]
    exact Nat.lt_size_self _
  · have hlow := Nat.lt_size.1 (Nat.sub_lt hs Nat.one_pos)
    have : k + (y / 2 ^ k).size - 1 < y.size := by
      rw [Nat.lt_size, show k + (y / 2 ^ k).size - 1 = (y / 2 ^ k).size - 1 + k by omega,
        Nat.pow_add, ← Nat.le_div_iff_mul_le (Nat.two_pow_pos k)]
      exact hlow
    omega

/-- `howManyBits`: the magnitude (`x`, or `~x` for negative `x`) is halved in width five times
by a binary search; `1` is added for the sign bit. -/
def howManyBits (x : BitVec 64) : BitVec 64 :=
  let sign := x.sshiftRight 63
  let x := (sign &&& ~~~x) ||| (~~~sign &&& x)
  let b32 := logicalNot (logicalNot (x.sshiftRight 32)) <<< 5
  let x := x.sshiftRight b32.toNat
  let b16 := logicalNot (logicalNot (x.sshiftRight 16)) <<< 4
  let x := x.sshiftRight b16.toNat
  let b8 := logicalNot (logicalNot (x.sshiftRight 8)) <<< 3
  let x := x.sshiftRight b8.toNat
  let b4 := logicalNot (logicalNot (x.sshiftRight 4)) <<< 2
  let x := x.sshiftRight b4.toNat
  let b2 := logicalNot (logicalNot (x.sshiftRight 2)) <<< 1
  let x := x.sshiftRight b2.toNat
  let b1 := logicalNot (logicalNot (x.sshiftRight 1))
  let x := x.sshiftRight b1.toNat
  b32 + b16 + b8 + b4 + b2 + b1 + x + 1

/-- One step of `howManyBits`'s search: with `b = k` when `x >> k` is nonzero and `0` otherwise,
`x >> b` has `b` bits fewer than `x` and fits in `k` bits. -/
theorem howManyBits_step {z b w : BitVec 64} {k : Nat} (h63 : z.toNat < 2 ^ 63)
    (hz : z.toNat < 2 ^ (2 * k)) (hb : b.toNat = if z.toNat >>> k = 0 then 0 else k)
    (hw : z.sshiftRight b.toNat = w) :
    w.toNat < 2 ^ k ∧ b.toNat ≤ k ∧ z.toNat.size = b.toNat + w.toNat.size := by
  rw [← hw, toNat_sshiftRight_of_lt h63, hb]
  split_ifs with h
  · rw [Nat.shiftRight_eq_div_pow, Nat.div_eq_zero_iff (Nat.two_pow_pos _)] at h
    simpa using h
  · refine ⟨?_, le_rfl, size_eq_add_size_shiftRight h⟩
    rw [Nat.shiftRight_eq_div_pow, Nat.div_lt_iff_lt_mul (Nat.two_pow_pos _), ← Nat.pow_add]
    rwa [← Nat.two_mul]

theorem howManyBits_toNat (x : BitVec 64) :
    (howManyBits x).toNat = (if x.msb then ~~~x else x).toNat.size + 1 := by
  set y := (x.sshiftRight 63 &&& ~~~x) ||| (~~~(x.sshiftRight 63) &&& x) with hy
  have hy' : y = if x.msb then ~~~x else x := by
    rw [hy, sshiftRight_63]
    cases x.msb
    · simp only [if_false, Bool.false_eq_true, BitVec.zero_and, BitVec.not_zero,
        BitVec.allOnes_and, BitVec.zero_or]
    · simp only [if_true, BitVec.allOnes_and, BitVec.not_allOnes, BitVec.zero_and,
        BitVec.or_zero]
  have h63 : y.toNat < 2 ^ 63 := by
    rw [hy']
    have := BitVec.msb_eq_decide x
    split_ifs with h <;> simp_all [BitVec.toNat_not]
    omega
  set b32 := logicalNot (logicalNot (y.sshiftRight 32)) <<< 5
  set x1 := y.sshiftRight b32.toNat
  set b16 := logicalNot (logicalNot (x1.sshiftRight 16)) <<< 4
  set x2 := x1.sshiftRight b16.toNat
  set b8 := logicalNot (logicalNot (x2.sshiftRight 8)) <<< 3
  set x3 := x2.sshiftRight b8.toNat
  set b4 := logicalNot (logicalNot (x3.sshiftRight 4)) <<< 2
  set x4 := x3.sshiftRight b4.toNat
  set b2 := logicalNot (logicalNot (x4.sshiftRight 2)) <<< 1
  set x5 := x4.sshiftRight b2.toNat
  set b1 := logicalNot (logicalNot (x5.sshiftRight 1))
  set x6 := x5.sshiftRight b1.toNat
  have hdef : howManyBits x = b32 + b16 + b8 + b4 + b2 + b1 + x6 + 1 := rfl
  have h1 := howManyBits_step (z := y) (b := b32) (w := x1) (k := 32) h63
    (lt_of_lt_of_le h63 (by decide)) (toNat_searchBit h63 (j := 5) rfl (by decide) 32) rfl
  have h2 := howManyBits_step (z := x1) (b := b16) (w := x2) (k := 16) (h1.1.trans (by decide))
    h1.1 (toNat_searchBit (h1.1.trans (by decide)) (j := 4) rfl (by decide) 16) rfl
  have h3 := howManyBits_step (z := x2) (b := b8) (w := x3) (k := 8) (h2.1.trans (by decide))
    h2.1 (toNat_searchBit (h2.1.trans (by decide)) (j := 3) rfl (by decide) 8) rfl
  have h4 := howManyBits_step (z := x3) (b := b4) (w := x4) (k := 4) (h3.1.trans (by decide))
    h3.1 (toNat_searchBit (h3.1.trans (by decide)) (j := 2) rfl (by decide) 4) rfl
  have h5 := howManyBits_step (z := x4) (b := b2) (w := x5) (k := 2) (h4.1.trans (by decide))
    h4.1 (toNat_searchBit (h4.1.trans (by decide)) (j := 1) rfl (by decide) 2) rfl
  have h6 := howManyBits_step (z := x5) (b := b1) (w := x6) (k := 1) (h5.1.trans (by decide))
    h5.1 (by simpa only [BitVec.shiftLeft_zero] using
      toNat_searchBit (h5.1.trans (by decide)) (j := 0) rfl (by decide) 1) rfl
  have hx6 : x6.toNat.size = x6.toNat := by
    rcases (show x6.toNat = 0 ∨ x6.toNat = 1 by omega) with h | h <;> rw [h]
    exacts [Nat.size_zero, Nat.size_one]
  rw [← hy', hdef]
  simp (disch := omega) only [BitVec.toNat_add, BitVec.ofNat_eq_ofNat, BitVec.toNat_ofNat,
    Nat.mod_eq_of_lt]
  omega

/-- The `long`s that fit in `n` bits of two's complement are those whose magnitude, as
`howManyBits` measures it, is below `2 ^ (n - 1)`. -/
theorem fits_iff (x : BitVec 64) (n : Nat) :
    (-2 ^ (n - 1) ≤ x.toInt ∧ x.toInt < 2 ^ (n - 1)) ↔
      (if x.msb then ~~~x else x).toNat < 2 ^ (n - 1) := by
  have hp : ((2 ^ (n - 1) : Nat) : Int) = 2 ^ (n - 1) := by push_cast; rfl
  have hx := x.isLt
  have hm := BitVec.msb_eq_decide x
  rw [BitVec.toInt_eq_msb_cond]
  cases h : x.msb <;> simp only [h, if_true, if_false, Bool.false_eq_true, BitVec.toNat_not]
    at hm ⊢
  · constructor
    · rintro ⟨-, h2⟩; omega
    · intro h2; omega
  · constructor
    · rintro ⟨h1, -⟩; omega
    · intro h2; omega

/-- `howManyBits x` is the least width of two's complement that holds `x`. -/
theorem howManyBits_isLeast (x : BitVec 64) :
    IsLeast {n | 0 < n ∧ -2 ^ (n - 1) ≤ x.toInt ∧ x.toInt < 2 ^ (n - 1)}
      (howManyBits x).toNat := by
  refine ⟨⟨?_, ?_⟩, fun n ⟨hn, hfit⟩ => ?_⟩
  · rw [howManyBits_toNat]; omega
  · rw [fits_iff, howManyBits_toNat, Nat.add_sub_cancel]; exact Nat.lt_size_self _
  · rw [fits_iff] at hfit
    have := Nat.size_le.2 hfit
    rw [howManyBits_toNat]; omega

/-! ## `hexAllLetters` -/

/-- `hexAllLetters`: the sixteen hex digits of `x`, or-ed together, compared with `0x0a`. -/
def hexAllLetters (x : BitVec 64) : BitVec 64 :=
  let mask : BitVec 64 := 0xf
  let a := x.sshiftRight 0 &&& mask
  let b := x.sshiftRight 4 &&& mask
  let c := x.sshiftRight 8 &&& mask
  let d := x.sshiftRight 12 &&& mask
  let e := x.sshiftRight 16 &&& mask
  let f := x.sshiftRight 20 &&& mask
  let g := x.sshiftRight 24 &&& mask
  let h := x.sshiftRight 28 &&& mask
  let i := x.sshiftRight 32 &&& mask
  let j := x.sshiftRight 36 &&& mask
  let k := x.sshiftRight 40 &&& mask
  let l := x.sshiftRight 44 &&& mask
  let m := x.sshiftRight 48 &&& mask
  let n := x.sshiftRight 52 &&& mask
  let o := x.sshiftRight 56 &&& mask
  let p := x.sshiftRight 60 &&& mask
  let result := a ||| b ||| c ||| d ||| e ||| f ||| g ||| h ||| i ||| j ||| k ||| l ||| m |||
    n ||| o ||| p
  logicalNot (result ^^^ 0x0a)

/-- Hex digit `k` of `x`, as `hexAllLetters` extracts it. -/
def hexDigit (x : BitVec 64) (k : Nat) : BitVec 64 := x.sshiftRight (4 * k) &&& 0xf

theorem getLsbD_hexDigit (x : BitVec 64) {k : Nat} (hk : k < 16) (j : Nat) :
    (hexDigit x k).getLsbD j = (decide (j < 4) && x.getLsbD (4 * k + j)) := by
  have hmask : (0xf#64).getLsbD j = decide (j < 4) := by
    rw [BitVec.getLsbD_ofNat, show 0xf = 2 ^ 4 - 1 from rfl, Nat.testBit_two_pow_sub_one]
    by_cases hj : j < 4
    · simp [hj, show j < 64 by omega]
    · simp [hj]
  rw [hexDigit, BitVec.ofNat_eq_ofNat, BitVec.getLsbD_and, hmask, BitVec.getLsbD_sshiftRight]
  by_cases hj : j < 4
  · simp [hj, show 4 * k + j < 64 by omega, show ¬ 64 ≤ j by omega]
  · simp [hj]

theorem getLsbD_foldl_or (f : Nat → BitVec 64) (l : List Nat) (init : BitVec 64) (j : Nat) :
    (l.foldl (fun acc k => acc ||| f k) init).getLsbD j =
      (init.getLsbD j || l.any fun k => (f k).getLsbD j) := by
  induction l generalizing init with
  | nil => simp
  | cons k l ih => simp only [List.foldl_cons, ih, BitVec.getLsbD_or, List.any_cons, Bool.or_assoc]

/-- `hexAllLetters`' `result` has bit `j` set when `j < 4` and some digit has bit `j` set. -/
theorem getLsbD_hexDigits (x : BitVec 64) (j : Nat) :
    ((List.range' 1 15).foldl (fun acc k => acc ||| hexDigit x k) (hexDigit x 0)).getLsbD j =
      true ↔ j < 4 ∧ ∃ k < 16, x.getLsbD (4 * k + j) = true := by
  rw [getLsbD_foldl_or]
  change ((0 :: List.range' 1 15).any fun k => (hexDigit x k).getLsbD j) = true ↔ _
  simp only [List.any_eq_true]
  constructor
  · rintro ⟨k, hk, hb⟩
    have hk : k < 16 := by
      rcases List.mem_cons.1 hk with rfl | hk
      · decide
      · have := List.mem_range'_1.1 hk; omega
    rw [getLsbD_hexDigit x hk] at hb
    simp only [Bool.and_eq_true, decide_eq_true_eq] at hb
    exact ⟨hb.1, k, hk, hb.2⟩
  · rintro ⟨hj, k, hk, hb⟩
    refine ⟨k, ?_, by rw [getLsbD_hexDigit x hk]; simp [hj, hb]⟩
    rcases Nat.eq_zero_or_pos k with rfl | hpos
    · exact List.mem_cons_self _ _
    · exact List.mem_cons_of_mem _ (List.mem_range'_1.2 ⟨hpos, by omega⟩)

/-- `hexAllLetters x` is `1` exactly when the or of the sixteen hex digits of `x` is `0xa`:
every set bit of `x` is odd-numbered (every digit is `0`, `2`, `8` or `a`), some digit has
bit 1 set and some has bit 3 set. So `x = 0xabcdefabcdefabcd`, all letters, gives `0`, and
`0xa0`, with a digit `0`, gives `1`. -/
theorem hexAllLetters_eq (x : BitVec 64) :
    hexAllLetters x =
      if (∀ i < 64, x.getLsbD i = true → i % 2 = 1) ∧ (∃ i < 64, i % 4 = 1 ∧ x.getLsbD i = true) ∧
        (∃ i < 64, i % 4 = 3 ∧ x.getLsbD i = true) then 1 else 0 := by
  set R := (List.range' 1 15).foldl (fun acc k => acc ||| hexDigit x k) (hexDigit x 0)
  have hdef : hexAllLetters x = logicalNot (R ^^^ 0x0a#64) := rfl
  have ha : ∀ i < 64, (0x0a#64).getLsbD i = decide (i = 1 ∨ i = 3) := by decide
  have hbit : ∀ i < 64, (R ^^^ 0x0a#64).getLsbD i = false ↔
      ((i < 4 ∧ ∃ k < 16, x.getLsbD (4 * k + i) = true) ↔ i = 1 ∨ i = 3) := fun i hi => by
    rw [BitVec.getLsbD_xor, ha i hi, ← getLsbD_hexDigits x i]
    cases R.getLsbD i <;> by_cases h : i = 1 ∨ i = 3 <;> simp [h]
  rw [hdef, logicalNot_eq]
  refine if_congr ?_ rfl rfl
  rw [toNat_eq_zero_iff_getLsbD]
  constructor
  · intro h
    have h' := fun i hi => (hbit i hi).1 (h i hi)
    refine ⟨fun i hi hx => ?_, ?_, ?_⟩
    · by_contra hodd
      have := (h' (i % 4) (by omega)).1
        ⟨by omega, i / 4, by omega, by rwa [show 4 * (i / 4) + i % 4 = i by omega]⟩
      omega
    · obtain ⟨_, k, hk, hx⟩ := (h' 1 (by omega)).2 (.inl rfl)
      exact ⟨4 * k + 1, by omega, by omega, hx⟩
    · obtain ⟨_, k, hk, hx⟩ := (h' 3 (by omega)).2 (.inr rfl)
      exact ⟨4 * k + 3, by omega, by omega, hx⟩
  · rintro ⟨hodd, ⟨i1, hi1, hm1, hx1⟩, ⟨i3, hi3, hm3, hx3⟩⟩ i hi
    refine (hbit i hi).2 ⟨fun ⟨_, k, _, hx⟩ => ?_, fun h13 => ?_⟩
    · have := hodd _ (by omega) hx; omega
    · rcases h13 with rfl | rfl
      · exact ⟨by omega, i1 / 4, by omega, by rwa [show 4 * (i1 / 4) + 1 = i1 by omega]⟩
      · exact ⟨by omega, i3 / 4, by omega, by rwa [show 4 * (i3 / 4) + 3 = i3 by omega]⟩

example : hexAllLetters 0xabcdefabcdefabcd = 0 ∧ hexAllLetters 0xa0 = 1 := by decide

/-! ## `tmax`, `isTmin`, `isNegative` -/

/-- `tmax`: `~(1 << 63)`. -/
def tmax : BitVec 64 := ~~~(1 <<< 63)

example : tmax.toInt = 2 ^ 63 - 1 := by decide

/-- C's `x + y` on `long`s: undefined (`none`) when the sum overflows. -/
def addLong (x y : BitVec 64) : Option (BitVec 64) :=
  if -2 ^ 63 ≤ x.toInt + y.toInt ∧ x.toInt + y.toInt < 2 ^ 63 then some (x + y) else none

/-- `isTmin`: `!(x + x) & !!x`, meant to catch the one nonzero `x` with `x + x` zero once it
wraps. -/
def isTmin (x : BitVec 64) : Option (BitVec 64) :=
  (addLong x x).map fun twice => logicalNot twice &&& logicalNot (logicalNot x)

/-- `isNegative`: the sign bit, spread by `x >> 63`, masked to bit 0. -/
def isNegative (x : BitVec 64) : BitVec 64 := x.sshiftRight 63 &&& 1

theorem isNegative_eq (x : BitVec 64) : isNegative x = if x.toInt < 0 then 1 else 0 := by
  have hx := x.isLt
  have hm := BitVec.msb_eq_decide x
  rw [isNegative, sshiftRight_63, BitVec.toInt_eq_msb_cond]
  cases h : x.msb <;> simp only [h, if_true, if_false, Bool.false_eq_true] at hm ⊢
  · rw [if_neg (by omega)]; rfl
  · simp at hm; rw [if_pos (by omega)]; rfl

/-! ## `integerLog2` -/

/-- `integerLog2`: the exponent is found bit by bit from the top, shifting by what is found so
far. -/
def integerLog2 (x : BitVec 64) : BitVec 64 :=
  let mask := logicalNot (logicalNot (x.sshiftRight 32)) <<< 5
  let result := mask
  let mask := logicalNot (logicalNot (x.sshiftRight (result + 16).toNat)) <<< 4
  let result := result + mask
  let mask := logicalNot (logicalNot (x.sshiftRight (result + 8).toNat)) <<< 3
  let result := result + mask
  let mask := logicalNot (logicalNot (x.sshiftRight (result + 4).toNat)) <<< 2
  let result := result + mask
  let mask := logicalNot (logicalNot (x.sshiftRight (result + 2).toNat)) <<< 1
  let result := result + mask
  result + logicalNot (logicalNot (x.sshiftRight (result + 1).toNat))

/-- One step of `integerLog2`'s search: `result` stays at most `log₂ x` and comes within `k` of
it. -/
theorem integerLog2_step {x r m n : BitVec 64} {j k : Nat} (hx : x.toNat ≠ 0)
    (h63 : x.toNat < 2 ^ 63) (hk : 2 ^ j = k) (hj : j < 6)
    (hr : r.toNat ≤ x.toNat.log2 ∧ x.toNat.log2 < r.toNat + 2 * k)
    (hm : logicalNot (logicalNot (x.sshiftRight (r + BitVec.ofNat 64 k).toNat)) <<< j = m)
    (hn : r + m = n) :
    n.toNat ≤ x.toNat.log2 ∧ x.toNat.log2 < n.toNat + k := by
  have hlog : x.toNat.log2 < 63 := (Nat.log2_lt hx).2 h63
  have hk32 : 2 ^ j ≤ 2 ^ 5 := Nat.pow_le_pow_right (by decide) (by omega)
  have hrk : (r + BitVec.ofNat 64 k).toNat = r.toNat + k := by
    rw [BitVec.toNat_add, BitVec.toNat_ofNat]; omega
  have hshift : x.toNat >>> (r.toNat + k) = 0 ↔ x.toNat.log2 < r.toNat + k := by
    rw [Nat.log2_lt hx, Nat.shiftRight_eq_div_pow, Nat.div_eq_zero_iff (Nat.two_pow_pos _)]
  have hmk := toNat_searchBit h63 hk (by omega) (r + BitVec.ofNat 64 k).toNat
  rw [hm, hrk] at hmk
  rw [← hn, BitVec.toNat_add, hmk]
  split_ifs at hmk ⊢ with h
  · have := hshift.1 h; omega
  · have := mt hshift.2 h; omega

/-- `integerLog2 x = ⌊log₂ x⌋` for every positive `x`. -/
theorem integerLog2_toNat {x : BitVec 64} (hx : 0 < x.toInt) :
    (integerLog2 x).toNat = x.toNat.log2 := by
  have h63 : x.toNat < 2 ^ 63 := by
    have := BitVec.msb_eq_decide x
    rw [BitVec.toInt_eq_msb_cond] at hx
    cases h : x.msb <;> simp_all
    omega
  have hx0 : x.toNat ≠ 0 := by
    rw [BitVec.toInt_eq_msb_cond] at hx; split at hx <;> omega
  have hlog : x.toNat.log2 < 63 := (Nat.log2_lt hx0).2 h63
  set m32 := logicalNot (logicalNot (x.sshiftRight 32)) <<< 5
  set m16 := logicalNot (logicalNot (x.sshiftRight (m32 + 16).toNat)) <<< 4
  set r2 := m32 + m16
  set m8 := logicalNot (logicalNot (x.sshiftRight (r2 + 8).toNat)) <<< 3
  set r3 := r2 + m8
  set m4 := logicalNot (logicalNot (x.sshiftRight (r3 + 4).toNat)) <<< 2
  set r4 := r3 + m4
  set m2 := logicalNot (logicalNot (x.sshiftRight (r4 + 2).toNat)) <<< 1
  set r5 := r4 + m2
  set m1 := logicalNot (logicalNot (x.sshiftRight (r5 + 1).toNat))
  have hdef : integerLog2 x = r5 + m1 := rfl
  have h1 := integerLog2_step (r := 0#64) (m := m32) (n := m32) (j := 5) (k := 32) hx0 h63 rfl
    (by decide) ⟨Nat.zero_le _, by simp; omega⟩ rfl (BitVec.zero_add _)
  have h2 := integerLog2_step (r := m32) (m := m16) (n := r2) (j := 4) (k := 16) hx0 h63 rfl
    (by decide) h1 rfl rfl
  have h3 := integerLog2_step (r := r2) (m := m8) (n := r3) (j := 3) (k := 8) hx0 h63 rfl
    (by decide) h2 rfl rfl
  have h4 := integerLog2_step (r := r3) (m := m4) (n := r4) (j := 2) (k := 4) hx0 h63 rfl
    (by decide) h3 rfl rfl
  have h5 := integerLog2_step (r := r4) (m := m2) (n := r5) (j := 1) (k := 2) hx0 h63 rfl
    (by decide) h4 rfl rfl
  have h6 := integerLog2_step (r := r5) (m := m1) (n := r5 + m1) (j := 0) (k := 1) hx0 h63 rfl
    (by decide) h5 (BitVec.shiftLeft_zero _) rfl
  rw [hdef]; omega

theorem integerLog2_toNat_16 : 0 < (16 : BitVec 64).toInt ∧ (integerLog2 16).toNat = 4 :=
  ⟨by decide, (integerLog2_toNat (by decide)).trans (show (2 ^ 4).log2 = 4 from Nat.log2_two_pow)⟩

end SystemsLabs.Bits
