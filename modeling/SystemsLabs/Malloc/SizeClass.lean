import SystemsLabs.Malloc.Word
import Mathlib.Tactic.GCongr
import Mathlib.Tactic.NormNum
import Mathlib.Tactic.Positivity

/-!
# Size classes and the adjusted request size

`find_seg_list_class` doubles a threshold, `min_block_size << seg_list_class`, until it reaches
the size. The shift is on a 64-bit `size_t`, so the threshold is `16 * 2 ^ c % 2 ^ 64`, and a
shift by 64 or more is undefined in C: `segListClassLoop` returns `none` when the loop would
get there, and `findSegListClass` is `none` exactly then.

* `findSegListClass_of_between`: for `16 * 2 ^ (c - 1) < size ≤ 16 * 2 ^ c ≤ 2 ^ 63` the class is
  `min c 13`, and `findSegListClass_mono` orders the classes of two sizes.
* `findSegListClass_of_gt`: above `2 ^ 63` every threshold is at most `2 ^ 63`, so the loop never
  exits; `malloc (2 ^ 63)` asks for the class of `2 ^ 63 + 16`.
* `adjustedSize`, the `asize` of `malloc`: correct up to `2 ^ 64 - 24`, wrapped above.
-/

namespace SystemsLabs.Malloc

/-- `min_block_size << c` as a `size_t`. -/
def threshold (c : Nat) : Nat := (minBlockSize <<< c) % 2 ^ 64

/-- The loop `while (size > (min_block_size << seg_list_class)) seg_list_class++` from class
`c`, with `fuel` iterations left before the shift count reaches 64. -/
def segListClassLoop (size : Nat) : Nat → Nat → Option Nat
  | 0, _ => none
  | fuel + 1, c => if size > threshold c then segListClassLoop size fuel (c + 1) else some c

/-- `find_seg_list_class(size)`; `none` where the C loop shifts by 64 or more. -/
def findSegListClass (size : Nat) : Option Nat :=
  if size ≤ minBlockSize then some 0
  else (segListClassLoop size 63 1).map fun c =>
    if c < MAX_SEG_LIST_LENGTH then c else MAX_SEG_LIST_LENGTH - 1

theorem threshold_of_lt {c : Nat} (hc : c < 60) : threshold c = 16 * 2 ^ c := by
  have : 16 * 2 ^ c < 2 ^ 64 := by
    calc 16 * 2 ^ c < 16 * 2 ^ 60 := by gcongr; decide
      _ = 2 ^ 64 := by norm_num
  rw [threshold, minBlockSize_eq, Nat.shiftLeft_eq, Nat.mod_eq_of_lt this]

theorem threshold_le (c : Nat) : threshold c ≤ 2 ^ 63 := by
  by_cases hc : c < 60
  · rw [threshold_of_lt hc]
    calc 16 * 2 ^ c ≤ 16 * 2 ^ 59 := by gcongr <;> omega
      _ = 2 ^ 63 := by norm_num
  · have : (16 <<< c) % 2 ^ 64 = 0 := by
      rw [Nat.shiftLeft_eq, show c = 60 + (c - 60) by omega, pow_add, ← mul_assoc,
        show (16 * 2 ^ 60 : Nat) = 2 ^ 64 by norm_num]
      exact Nat.mul_mod_right _ _
    rw [threshold, minBlockSize_eq, this]
    exact Nat.zero_le _

/-- The loop stops at the first class whose threshold reaches the size. -/
theorem segListClassLoop_eq (size c : Nat) :
    ∀ fuel c₀, c₀ ≤ c → c < c₀ + fuel → (∀ c', c₀ ≤ c' → c' < c → threshold c' < size) →
      size ≤ threshold c → segListClassLoop size fuel c₀ = some c := by
  intro fuel
  induction fuel with
  | zero => intro c₀ _ h; omega
  | succ fuel ih =>
    intro c₀ h₀ hc hbelow hstop
    rw [segListClassLoop]
    by_cases hc₀ : c₀ = c
    · subst hc₀; rw [if_neg (by omega)]
    · rw [if_pos (hbelow c₀ le_rfl (by omega))]
      exact ih (c₀ + 1) (by omega) (by omega) (fun c' h₁ h₂ => hbelow c' (by omega) h₂) hstop

/-- The loop runs out, reaching shift count 64, when no threshold reaches the size. -/
theorem segListClassLoop_eq_none (size : Nat) :
    ∀ fuel c₀, (∀ c', c₀ ≤ c' → threshold c' < size) → segListClassLoop size fuel c₀ = none := by
  intro fuel
  induction fuel with
  | zero => intro c₀ _; rfl
  | succ fuel ih =>
    intro c₀ h
    rw [segListClassLoop, if_pos (h c₀ le_rfl)]
    exact ih (c₀ + 1) fun c' hc' => h c' (by omega)

/-- For `16 * 2 ^ (c - 1) < size ≤ 16 * 2 ^ c` (with `c ≥ 1`, `size ≤ 2 ^ 63`) the class is `c`,
capped at the last list. -/
theorem findSegListClass_of_between {size c : Nat} (hc : 1 ≤ c) (hlo : 16 * 2 ^ (c - 1) < size)
    (hhi : size ≤ 16 * 2 ^ c) (h63 : size ≤ 2 ^ 63) :
    findSegListClass size = some (min c 13) := by
  have hc60 : c < 60 := by
    by_contra h
    have : 16 * 2 ^ 59 ≤ 16 * 2 ^ (c - 1) := by gcongr <;> omega
    have : (16 * 2 ^ 59 : Nat) = 2 ^ 63 := by norm_num
    omega
  have h16 : ¬ size ≤ minBlockSize := by
    have := Nat.one_le_two_pow (n := c - 1); simp only [minBlockSize_eq]; omega
  rw [findSegListClass, if_neg h16, segListClassLoop_eq size c 63 1 hc (by omega)
    (fun c' h₁ h₂ => by
      rw [threshold_of_lt (by omega)]
      have : 16 * 2 ^ c' ≤ 16 * 2 ^ (c - 1) := by gcongr <;> omega
      omega)
    (by rw [threshold_of_lt hc60]; exact hhi)]
  simp only [Option.map_some', MAX_SEG_LIST_LENGTH_eq, Option.some.injEq]
  split <;> omega

/-- Every size in `(16, 2 ^ 63]` lies between two consecutive thresholds. -/
theorem exists_between {size : Nat} (h16 : 16 < size) (h63 : size ≤ 2 ^ 63) :
    ∃ c, 1 ≤ c ∧ 16 * 2 ^ (c - 1) < size ∧ size ≤ 16 * 2 ^ c := by
  have hP : ∃ c, size ≤ 16 * 2 ^ c := ⟨59, by norm_num; omega⟩
  have h1 : 1 ≤ Nat.find hP := by
    by_contra h
    have := Nat.find_spec hP
    simp only [show Nat.find hP = 0 by omega, pow_zero] at this
    omega
  refine ⟨Nat.find hP, h1, ?_, Nat.find_spec hP⟩
  exact Nat.lt_of_not_le (Nat.find_min hP (by omega))

theorem findSegListClass_le_16 {size : Nat} (h : size ≤ 16) : findSegListClass size = some 0 := by
  simp [findSegListClass, h]

/-- Every size up to `2 ^ 63` has a class, one of the 14 lists. -/
theorem findSegListClass_lt {size : Nat} (h63 : size ≤ 2 ^ 63) :
    ∃ c, findSegListClass size = some c ∧ c < MAX_SEG_LIST_LENGTH := by
  by_cases h16 : size ≤ 16
  · exact ⟨0, findSegListClass_le_16 h16, by decide⟩
  · obtain ⟨c, hc, hlo, hhi⟩ := exists_between (by omega) h63
    exact ⟨min c 13, findSegListClass_of_between hc hlo hhi h63, by simp⟩

/-- The class grows with the size. -/
theorem findSegListClass_mono {a b ca cb : Nat} (hab : a ≤ b) (h63 : b ≤ 2 ^ 63)
    (ha : findSegListClass a = some ca) (hb : findSegListClass b = some cb) : ca ≤ cb := by
  by_cases ha16 : a ≤ 16
  · rw [findSegListClass_le_16 ha16] at ha; cases ha; exact Nat.zero_le _
  obtain ⟨c, hc, hlo, hhi⟩ := exists_between (by omega) (le_trans hab h63)
  obtain ⟨d, hd, hlo', hhi'⟩ := exists_between (by omega) h63
  rw [findSegListClass_of_between hc hlo hhi (by omega)] at ha
  rw [findSegListClass_of_between hd hlo' hhi' h63] at hb
  cases ha; cases hb
  have : c ≤ d := by
    by_contra h
    have : 16 * 2 ^ d ≤ 16 * 2 ^ (c - 1) := by gcongr <;> omega
    omega
  omega

/-- Above `2 ^ 63` the loop never exits. -/
theorem findSegListClass_of_gt {size : Nat} (h : 2 ^ 63 < size) : findSegListClass size = none := by
  rw [findSegListClass, if_neg (by simp only [minBlockSize_eq]; omega),
    segListClassLoop_eq_none size 63 1 fun c' _ => lt_of_le_of_lt (threshold_le c') h]
  rfl

/-! ## The adjusted size of `malloc` -/

/-- `asize = round_up(size + wsize, dsize)` in `malloc`, with `size_t` wrap-around. -/
def adjustedSize (size : Nat) : Nat := roundUp ((size + wsize) % 2 ^ 64) dsize

/-- Up to `2 ^ 64 - 24` the adjusted size is the least 16-byte multiple holding the request and
its header. -/
theorem adjustedSize_spec {size : Nat} (h : size ≤ 2 ^ 64 - 24) :
    adjustedSize size % 16 = 0 ∧ size + 8 ≤ adjustedSize size ∧ adjustedSize size < size + 24 := by
  simp only [adjustedSize, roundUp, wsize_eq, dsize_eq]
  rw [Nat.mod_eq_of_lt (by omega : size + 8 < 2 ^ 64), Nat.mod_eq_of_lt (by omega : size + 8 + 15 < 2 ^ 64)]
  omega

end SystemsLabs.Malloc
