import Mathlib.Data.Nat.Size
import Mathlib.Tactic.Set
import Mathlib.Algebra.Order.Ring.Nat
import Mathlib.Algebra.Group.Int

/-!
# The floating-point puzzles of `bits.c`

The float puzzles are passed the bits of a single-precision float as an `unsigned`, here a
`BitVec 32`. What the bits denote is `decode`, after IEEE 754 binary32: an exponent field of all
ones is an infinity or NaN, a zero field a subnormal, any other a normal number; a finite value
is a sign and a magnitude counted in units of `2^-149`, the least subnormal, so that every
finite value is exact and comparisons of values are comparisons of integers.

* `floatFloat2Int` is `(int) f`, truncation toward zero, with `0x80000000` for NaN, infinities
  and values out of range (`floatFloat2Int_eq`: it equals `float2IntSpec` on every input);
* `floatNegate` negates every value and returns NaNs unchanged (`floatNegate_spec`);
* `floatScale1d4` returns NaNs and infinities unchanged, is exactly `f / 4` on normal numbers
  with exponent field 3 or more, and divides small positive numbers rounding halves up
  (`floatScale1d4_quarter`); at exponent field 2 it drops the hidden bit, and below that it
  shifts the sign bit of a negative number into the exponent (`floatScale1d4_tiny`).

The `int` locals of `floatFloat2Int` are `Int`s (`frac`, which only holds nonnegative values, a
`Nat`): none of its `int` operations overflows, since `frac < 2^24` is shifted left by at most
`7`.
-/

namespace SystemsLabs.Bits

/-! ## Single-precision floats -/

/-- The exponent field, bits 23 to 30. -/
def expField (uf : BitVec 32) : Nat := uf.toNat / 2 ^ 23 % 2 ^ 8

/-- The fraction field, bits 0 to 22. -/
def fracField (uf : BitVec 32) : Nat := uf.toNat % 2 ^ 23

/-- What a float denotes: a finite value (sign, magnitude in units of `2^-149`), an infinity,
or NaN. -/
inductive FloatValue where
  | finite (neg : Bool) (mag : Nat)
  | infinite (neg : Bool)
  | nan
  deriving DecidableEq, Repr

/-- IEEE 754 binary32: a normal number is `1.frac × 2^(exp - 127)`, that is
`(2^23 + frac) × 2^(exp - 1)` units of `2^-149`; a subnormal is `frac` units. -/
def decode (uf : BitVec 32) : FloatValue :=
  if expField uf = 255 then (if fracField uf = 0 then .infinite uf.msb else .nan)
  else if expField uf = 0 then .finite uf.msb (fracField uf)
  else .finite uf.msb ((2 ^ 23 + fracField uf) * 2 ^ (expField uf - 1))

/-- `-f`: NaN stays NaN. -/
def FloatValue.neg : FloatValue → FloatValue
  | .finite s m => .finite (!s) m
  | .infinite s => .infinite (!s)
  | .nan => .nan

theorem toNat_fields (uf : BitVec 32) :
    uf.toNat = (if uf.msb then 2 ^ 31 else 0) + expField uf * 2 ^ 23 + fracField uf ∧
      expField uf < 2 ^ 8 ∧ fracField uf < 2 ^ 23 := by
  have hx := uf.isLt
  have hm := BitVec.msb_eq_decide uf
  unfold expField fracField
  cases h : uf.msb <;> simp only [h, if_true, if_false, Bool.false_eq_true] at hm ⊢ <;>
    simp at hm <;> omega

/-- A word laid out as sign `b`, exponent field `E` and fraction field `F` has those fields. -/
theorem fields_of_toNat {r : BitVec 32} {b : Bool} {E F : Nat} (hE : E < 2 ^ 8)
    (hF : F < 2 ^ 23) (hr : r.toNat = (if b then 2 ^ 31 else 0) + E * 2 ^ 23 + F) :
    r.msb = b ∧ expField r = E ∧ fracField r = F := by
  have hm := BitVec.msb_eq_decide r
  unfold expField fracField
  cases b <;> simp only [if_true, if_false, Bool.false_eq_true] at hr <;> rw [hm] <;>
    refine ⟨?_, by omega, by omega⟩ <;> simp <;> omega

theorem toNat_expMask (uf : BitVec 32) : ((uf >>> 23) &&& 0xFF).toNat = expField uf := by
  rw [BitVec.toNat_and, BitVec.toNat_ushiftRight,
    show (0xFF : BitVec 32).toNat = 2 ^ 8 - 1 from rfl, Nat.and_pow_two_sub_one_eq_mod,
    Nat.shiftRight_eq_div_pow]; rfl

theorem toNat_fracMask (uf : BitVec 32) : (uf &&& 0x007FFFFF).toNat = fracField uf := by
  rw [BitVec.toNat_and, show (0x007FFFFF : BitVec 32).toNat = 2 ^ 23 - 1 from rfl,
    Nat.and_pow_two_sub_one_eq_mod]; rfl

theorem toNat_expMaskHigh (uf : BitVec 32) :
    (uf &&& 0x7F800000).toNat = expField uf * 2 ^ 23 := by
  have hmask : ∀ i < 32, (0x7F800000#32).getLsbD i = decide (23 ≤ i ∧ i < 31) := by decide
  have hff : ∀ i < 32, (0xFF#32).getLsbD i = decide (i < 8) := by decide
  have h : uf &&& 0x7F800000#32 = ((uf >>> 23) &&& 0xFF#32) <<< 23 := by
    apply BitVec.eq_of_getLsbD_eq
    intro i
    have hi := i.isLt
    simp only [BitVec.getLsbD_and, BitVec.getLsbD_shiftLeft, BitVec.getLsbD_ushiftRight,
      hmask i hi]
    by_cases h23 : (i : Nat) < 23
    · simp [h23]
    · rw [hff _ (by omega), show 23 + ((i : Nat) - 23) = (i : Nat) by omega]
      by_cases h31 : (i : Nat) < 31
      · simp [h31, show 23 ≤ (i : Nat) by omega, show (i : Nat) - 23 < 8 by omega]
      · simp [h31, show ¬ (i : Nat) - 23 < 8 by omega]
  rw [BitVec.ofNat_eq_ofNat, h, BitVec.toNat_shiftLeft, ← BitVec.ofNat_eq_ofNat, toNat_expMask,
    Nat.shiftLeft_eq]
  have := (toNat_fields uf).2.1
  omega

theorem signMask_eq (uf : BitVec 32) :
    uf &&& 0x80000000 = if uf.msb then 0x80000000#32 else 0#32 := by
  have hmask : ∀ i < 32, (0x80000000#32).getLsbD i = decide (i = 31) := by decide
  have h31 : uf.getLsbD 31 = uf.msb := (BitVec.msb_eq_getLsbD_last uf).symm
  apply BitVec.eq_of_getLsbD_eq
  intro i
  rw [BitVec.getLsbD_and, BitVec.ofNat_eq_ofNat, hmask i i.isLt]
  by_cases hi : (i : Nat) = 31
  · rw [hi, h31]; cases uf.msb <;> simp [hmask]
  · cases uf.msb <;> simp [hi, hmask i i.isLt]

theorem signMask_ne_zero (uf : BitVec 32) : uf &&& 0x80000000 ≠ 0 ↔ uf.msb = true := by
  rw [signMask_eq]; cases uf.msb <;> decide

/-! ## `floatFloat2Int` -/

/-- `floatFloat2Int`: `0x80000000u`, returned as an `int`, is `-2^31`. -/
def floatFloat2Int (uf : BitVec 32) : Int :=
  let exp : Int := ((uf >>> 23) &&& 0xFF).toNat
  let sign := uf &&& 0x80000000
  let frac : Nat := (uf &&& 0x007FFFFF).toNat
  let bias : Int := 127
  if uf = 0 then 0
  else
    let e := exp - bias
    if exp = 0xFF ∨ e > 30 then -2 ^ 31
    else
      let frac := frac ||| 1 <<< 23
      if e < 0 then 0
      else
        let frac := if e > 23 then frac <<< (e - 23).toNat else frac >>> (23 - e).toNat
        if sign ≠ 0 then -(frac : Int) else frac

/-- `(int) f` as the puzzle asks: the value rounded toward zero when `f` is finite and that fits
in an `int`, and `0x80000000` otherwise. -/
def float2IntSpec (uf : BitVec 32) : Int :=
  match decode uf with
  | .finite neg mag =>
    let v : Int := if neg then -((mag / 2 ^ 149 : Nat) : Int) else (mag / 2 ^ 149 : Nat)
    if -2 ^ 31 ≤ v ∧ v < 2 ^ 31 then v else -2 ^ 31
  | _ => -2 ^ 31

/-- The integer part of the magnitude of a float with exponent field `E` from 127 to 157. -/
def truncField (E F : Nat) : Nat :=
  if E > 150 then (2 ^ 23 + F) * 2 ^ (E - 150) else (2 ^ 23 + F) / 2 ^ (150 - E)

/-- Setting the hidden bit of a fraction adds it. -/
theorem or_hidden {f : Nat} (hf : f < 2 ^ 23) : f ||| 1 <<< 23 = 2 ^ 23 + f := by
  apply Nat.eq_of_testBit_eq
  intro i
  rw [Nat.testBit_or, Nat.shiftLeft_eq, Nat.one_mul, show 2 ^ 23 + f = 2 ^ 23 * 2 ^ 0 + f by simp,
    Nat.testBit_mul_pow_two_add _ hf, Nat.testBit_two_pow, Nat.testBit_two_pow]
  split_ifs with h
  · simp; omega
  · rw [Nat.testBit_lt_two_pow (lt_of_lt_of_le hf (Nat.pow_le_pow_right (by decide) (by omega)))]
    simp; omega

/-- The integer part of a normal magnitude, for exponent fields from 127 on. -/
theorem mag_div {F E : Nat} (h1 : 127 ≤ E) :
    (2 ^ 23 + F) * 2 ^ (E - 1) / 2 ^ 149 = truncField E F := by
  unfold truncField
  split_ifs with h
  · rw [show E - 1 = (E - 150) + 149 by omega, Nat.pow_add, ← Nat.mul_assoc,
      Nat.mul_div_cancel _ (Nat.two_pow_pos _)]
  · rw [show 2 ^ 149 = 2 ^ (E - 1) * 2 ^ (150 - E) by rw [← Nat.pow_add]; congr 1; omega,
      Nat.mul_comm (2 ^ 23 + F), Nat.mul_div_mul_left _ _ (Nat.two_pow_pos _)]

/-- A float whose exponent field is below 127 has magnitude below `1`. -/
theorem mag_lt {E F : Nat} (hF : F < 2 ^ 23) (hE : E < 127) :
    (2 ^ 23 + F) * 2 ^ (E - 1) < 2 ^ 149 :=
  calc (2 ^ 23 + F) * 2 ^ (E - 1) < 2 ^ 24 * 2 ^ 125 :=
        Nat.mul_lt_mul_of_lt_of_le (by omega) (Nat.pow_le_pow_right (by decide) (by omega))
          (Nat.two_pow_pos _)
    _ = 2 ^ 149 := by decide

theorem truncField_lt {E F : Nat} (hF : F < 2 ^ 23) (hE : E ≤ 157) :
    truncField E F < 2 ^ 31 := by
  unfold truncField
  split_ifs with h
  · calc (2 ^ 23 + F) * 2 ^ (E - 150) < 2 ^ 24 * 2 ^ 7 :=
          Nat.mul_lt_mul_of_lt_of_le (by omega) (Nat.pow_le_pow_right (by decide) (by omega))
            (Nat.two_pow_pos _)
      _ = 2 ^ 31 := by decide
  · exact lt_of_le_of_lt (Nat.div_le_self _ _) (by omega)

theorem le_truncField {E F : Nat} (hE : 157 < E) : 2 ^ 31 ≤ truncField E F := by
  unfold truncField
  rw [if_pos (by omega)]
  calc 2 ^ 31 = 2 ^ 23 * 2 ^ 8 := by decide
    _ ≤ (2 ^ 23 + F) * 2 ^ (E - 150) :=
      Nat.mul_le_mul (by omega) (Nat.pow_le_pow_right (by decide) (by omega))

/-- The shifts of `floatFloat2Int`, on the fraction with its hidden bit. -/
theorem shift_eq_truncField (E F : Nat) :
    (if (E : Int) - 127 > 23 then (2 ^ 23 + F) <<< ((E : Int) - 127 - 23).toNat
      else (2 ^ 23 + F) >>> (23 - ((E : Int) - 127)).toNat) = truncField E F := by
  unfold truncField
  split_ifs <;> first | omega | skip
  · rw [Nat.shiftLeft_eq, show ((E : Int) - 127 - 23).toNat = E - 150 by omega]
  · rw [Nat.shiftRight_eq_div_pow, show (23 - ((E : Int) - 127)).toNat = 150 - E by omega]

/-- `floatFloat2Int` by the fields of its argument. -/
theorem floatFloat2Int_fields (uf : BitVec 32) :
    floatFloat2Int uf =
      if uf.toNat = 0 then 0
      else if expField uf = 255 ∨ expField uf > 157 then -2 ^ 31
      else if expField uf < 127 then 0
      else if uf.msb then -(truncField (expField uf) (fracField uf) : Int)
      else truncField (expField uf) (fracField uf) := by
  obtain ⟨hu, hE, hF⟩ := toNat_fields uf
  have hz : uf = 0 ↔ uf.toNat = 0 := ⟨fun h => h ▸ rfl, fun h => BitVec.eq_of_toNat_eq h⟩
  simp only [floatFloat2Int, toNat_expMask, toNat_fracMask, signMask_ne_zero, hz, or_hidden hF,
    shift_eq_truncField]
  split_ifs <;> first | rfl | omega

/-- `float2IntSpec` by the fields of its argument: the same case split. -/
theorem float2IntSpec_fields (uf : BitVec 32) :
    float2IntSpec uf =
      if uf.toNat = 0 then 0
      else if expField uf = 255 ∨ expField uf > 157 then -2 ^ 31
      else if expField uf < 127 then 0
      else if uf.msb then -(truncField (expField uf) (fracField uf) : Int)
      else truncField (expField uf) (fracField uf) := by
  obtain ⟨hu, hE, hF⟩ := toNat_fields uf
  unfold float2IntSpec decode
  by_cases h255 : expField uf = 255
  · have hne : uf.toNat ≠ 0 := by omega
    simp only [h255, if_true, hne, if_false, true_or]
    split_ifs <;> rfl
  have hne : expField uf ≠ 0 → uf.toNat ≠ 0 := fun h => by omega
  by_cases h0 : expField uf = 0
  · have hq : fracField uf / 2 ^ 149 = 0 := Nat.div_eq_of_lt (lt_of_lt_of_le hF (by decide))
    rw [if_neg h255, if_pos h0]
    simp only [hq]
    simp [h0]
  by_cases hlo : expField uf < 127
  · simp only [h255, h0, ↓reduceIte, Nat.div_eq_of_lt (mag_lt hF hlo)]
    simp [hne h0, hlo, show ¬ 157 < expField uf by omega]
  simp only [h255, h0, hne h0, hlo, ↓reduceIte, mag_div (show 127 ≤ expField uf by omega),
    false_or]
  by_cases hbig : expField uf > 157
  · have := le_truncField (F := fracField uf) hbig
    rw [if_pos hbig]
    split_ifs <;> omega
  · have := truncField_lt (E := expField uf) hF (by omega)
    rw [if_neg hbig]
    split_ifs <;> omega

/-- `floatFloat2Int` is `(int) f` on every float: truncation toward zero, and `0x80000000` for
NaN, the infinities and every value outside the `int` range. -/
theorem floatFloat2Int_eq (uf : BitVec 32) : floatFloat2Int uf = float2IntSpec uf := by
  rw [floatFloat2Int_fields, float2IntSpec_fields]

/-! ## `floatNegate` -/

/-- `floatNegate`: `1 << 31`, an `int`, is `0x80000000` once converted for the `^`. -/
def floatNegate (uf : BitVec 32) : BitVec 32 :=
  let exp := ((uf >>> 23) &&& 0xFF).toNat
  let frac := (uf &&& 0x007FFFFF).toNat
  let isNaN := exp = 0xFF ∧ frac ≠ 0
  if isNaN then uf else uf ^^^ 0x80000000

/-- Flipping bit 31 flips the sign and keeps the exponent and fraction fields. -/
theorem fields_xor_sign (uf : BitVec 32) :
    (uf ^^^ 0x80000000#32).msb = !uf.msb ∧ expField (uf ^^^ 0x80000000#32) = expField uf ∧
      fracField (uf ^^^ 0x80000000#32) = fracField uf := by
  have hlow : (uf ^^^ 0x80000000#32).toNat % 2 ^ 31 = uf.toNat % 2 ^ 31 := by
    rw [← BitVec.toNat_setWidth, ← BitVec.toNat_setWidth, BitVec.setWidth_xor,
      show (0x80000000#32).setWidth 31 = 0#31 by decide, BitVec.xor_zero]
  refine ⟨by rw [BitVec.msb_xor, show (0x80000000#32).msb = true by decide, Bool.xor_true],
    ?_, ?_⟩
  · unfold expField; omega
  · unfold fracField; omega

theorem decode_xor_sign (uf : BitVec 32) :
    decode (uf ^^^ 0x80000000#32) = (decode uf).neg := by
  obtain ⟨hs, he, hf⟩ := fields_xor_sign uf
  unfold decode
  rw [hs, he, hf]
  split_ifs <;> rfl

/-- `floatNegate` denotes `-f` on every float, and returns a NaN as it is. -/
theorem floatNegate_spec (uf : BitVec 32) :
    decode (floatNegate uf) = (decode uf).neg ∧ (decode uf = .nan → floatNegate uf = uf) := by
  have hnan : decode uf = .nan ↔ expField uf = 0xFF ∧ fracField uf ≠ 0 := by
    unfold decode; split_ifs <;> simp_all
  have hdef : floatNegate uf =
      if expField uf = 0xFF ∧ fracField uf ≠ 0 then uf else uf ^^^ 0x80000000#32 := by
    simp only [floatNegate, toNat_expMask, toNat_fracMask]; rfl
  rw [hdef]
  split_ifs with h
  · exact ⟨by rw [hnan.2 h]; rfl, fun _ => rfl⟩
  · exact ⟨decode_xor_sign uf, fun h' => absurd (hnan.1 h') h⟩

/-! ## `floatScale1d4` -/

/-- `floatScale1d4`: `uf == 0x80000000L` compares `uf` widened to a `long`. -/
def floatScale1d4 (uf : BitVec 32) : BitVec 32 :=
  let mask_exp : BitVec 32 := 0x7F800000
  let exp := uf &&& mask_exp
  if exp = mask_exp then uf
  else if uf.toNat = 0x80000000 then uf
  else if exp.toNat ≤ 0x00800000 then (uf + (uf &&& 3)) >>> 2
  else uf - ((2 : BitVec 32) <<< 23)

/-- `exp == mask_exp` exactly for NaNs and infinities. -/
theorem expMask_eq_iff (uf : BitVec 32) :
    uf &&& 0x7F800000 = 0x7F800000 ↔ expField uf = 255 := by
  have hexp := toNat_expMaskHigh uf
  have hmax : (0x7F800000 : BitVec 32).toNat = 255 * 2 ^ 23 := rfl
  constructor
  · intro h; rw [h] at hexp; omega
  · intro h; apply BitVec.eq_of_toNat_eq; rw [hexp, hmax, h]

/-- The branch for exponent fields 2 to 254: the exponent field goes down by two. -/
theorem floatScale1d4_high {uf : BitVec 32} (h2 : 2 ≤ expField uf) (h255 : expField uf < 255) :
    (floatScale1d4 uf).toNat = uf.toNat - 2 ^ 24 := by
  obtain ⟨hu, hE, hF⟩ := toNat_fields uf
  have hexp := toNat_expMaskHigh uf
  have hne : uf.toNat ≠ 0x80000000 := by split_ifs at hu <;> omega
  simp only [floatScale1d4, mt (expMask_eq_iff uf).1 (by omega : ¬ expField uf = 255), if_false]
  rw [if_neg hne, if_neg (by rw [hexp]; omega), BitVec.toNat_sub,
    show ((2 : BitVec 32) <<< 23).toNat = 2 ^ 24 from rfl]
  split_ifs at hu <;> omega

/-- The branch for exponent fields 0 and 1 (`-0` apart): the whole word, sign bit included, is
shifted right by two after adding its low two bits. -/
theorem floatScale1d4_low {uf : BitVec 32} (hE : expField uf ≤ 1) (hne : uf.toNat ≠ 0x80000000) :
    (floatScale1d4 uf).toNat = (uf.toNat + uf.toNat % 4) / 4 := by
  obtain ⟨hu, hE8, hF⟩ := toNat_fields uf
  have hexp := toNat_expMaskHigh uf
  simp only [floatScale1d4, mt (expMask_eq_iff uf).1 (by omega : ¬ expField uf = 255), if_false]
  rw [if_neg hne, if_pos (by rw [hexp]; omega), BitVec.toNat_ushiftRight, BitVec.toNat_add,
    BitVec.toNat_and, show (3 : BitVec 32).toNat = 2 ^ 2 - 1 from rfl,
    Nat.and_pow_two_sub_one_eq_mod, Nat.shiftRight_eq_div_pow]
  split_ifs at hu <;> omega

/-- Where `floatScale1d4` is `0.25 * f`: NaNs and infinities come back unchanged, a normal number
with exponent field 3 or more is divided by 4 exactly, and a positive number below `2^-125`
(magnitude `M` units) becomes the subnormal `(M + M mod 4) / 4`, the quotient rounded to nearest
with halves rounded up. -/
theorem floatScale1d4_quarter (uf : BitVec 32) :
    (expField uf = 255 → floatScale1d4 uf = uf) ∧
      (3 ≤ expField uf → expField uf < 255 →
        ∃ s m, decode uf = .finite s (4 * m) ∧ decode (floatScale1d4 uf) = .finite s m) ∧
      (uf.msb = false → expField uf ≤ 1 →
        ∃ M, decode uf = .finite false M ∧
          decode (floatScale1d4 uf) = .finite false ((M + M % 4) / 4)) := by
  obtain ⟨hu, hE, hF⟩ := toNat_fields uf
  refine ⟨fun h => by simp only [floatScale1d4, (expMask_eq_iff uf).2 h, if_true],
    fun h3 h255 => ?_, fun hs h1 => ?_⟩
  · have hr := floatScale1d4_high (by omega) h255
    obtain ⟨hs, he, hf⟩ := fields_of_toNat (r := floatScale1d4 uf) (b := uf.msb)
      (E := expField uf - 2) (by omega) hF (by rw [hr]; split_ifs at hu ⊢ <;> omega)
    refine ⟨uf.msb, (2 ^ 23 + fracField uf) * 2 ^ (expField uf - 3), ?_, ?_⟩
    · unfold decode
      rw [if_neg (by omega), if_neg (by omega),
        show expField uf - 1 = expField uf - 3 + 2 by omega, Nat.pow_add]
      congr 1
      rw [Nat.mul_comm _ (2 ^ 2), Nat.mul_left_comm]
    · unfold decode
      rw [hs, he, hf, if_neg (by omega), if_neg (by omega),
        show expField uf - 2 - 1 = expField uf - 3 by omega]
  · rw [hs] at hu
    simp only [if_false, Bool.false_eq_true, Nat.zero_add] at hu
    have hr := floatScale1d4_low h1 (by omega)
    have hM : decode uf = .finite false uf.toNat := by
      unfold decode
      rw [if_neg (by omega), hs]
      split_ifs with h0
      · congr 1; omega
      · rw [show expField uf = 1 by omega] at hu ⊢; congr 1; omega
    refine ⟨uf.toNat, hM, ?_⟩
    obtain ⟨hs', he', hf'⟩ := fields_of_toNat (r := floatScale1d4 uf) (b := false) (E := 0)
      (F := (uf.toNat + uf.toNat % 4) / 4) (by decide) (by omega) (by rw [hr]; simp)
    unfold decode
    rw [hs', he', hf']; rfl

/-- Where `floatScale1d4` is not `0.25 * f`: at exponent field 2 the result keeps the fraction
and loses the hidden bit (`frac` units instead of about `2^22 + frac / 2`), and a negative
number below `2^-125` other than `-0` comes back positive and of magnitude at least `2^-63`, its
sign bit shifted into the exponent field. -/
theorem floatScale1d4_tiny (uf : BitVec 32) :
    (expField uf = 2 → decode (floatScale1d4 uf) = .finite uf.msb (fracField uf)) ∧
      (uf.msb = true → expField uf ≤ 1 → uf.toNat ≠ 0x80000000 →
        ∃ m, 2 ^ 86 ≤ m ∧ decode (floatScale1d4 uf) = .finite false m) := by
  obtain ⟨hu, hE, hF⟩ := toNat_fields uf
  refine ⟨fun h2 => ?_, fun hs h1 hne => ?_⟩
  · have hr : (floatScale1d4 uf).toNat = uf.toNat - 2 ^ 24 :=
      floatScale1d4_high (by omega) (by omega)
    obtain ⟨hs, he, hf⟩ := fields_of_toNat (r := floatScale1d4 uf) (b := uf.msb) (E := 0)
      (by omega) hF (by rw [hr]; split_ifs at hu ⊢ <;> omega)
    unfold decode
    rw [hs, he, hf]; rfl
  · have hr := floatScale1d4_low h1 hne
    rw [hs] at hu
    simp only [if_true] at hu
    obtain ⟨hs', he', hf'⟩ := fields_of_toNat (r := floatScale1d4 uf) (b := false) (E := 64)
      (F := (uf.toNat + uf.toNat % 4) / 4 - 2 ^ 29) (by decide) (by omega) (by rw [hr]; simp; omega)
    refine ⟨_, ?_, by unfold decode; rw [hs', he', hf']; rfl⟩
    calc 2 ^ 86 = 2 ^ 23 * 2 ^ (64 - 1) := by decide
      _ ≤ _ := Nat.mul_le_mul_right _ (by omega)

end SystemsLabs.Bits
