import Mathlib.Data.Nat.Bitwise

/-!
# Machine words and the block codec of `mm.c`

The allocator of the malloc lab works on raw memory. This module fixes the two layers every
other module reads it through:

* `Mem`, byte-addressed memory, with the 64-bit little-endian loads and stores the C code does
  through `word_t *` (`Mem.read`, `Mem.write`). Everything later is stated with
  `read_write_self` and the frame lemmas `read_write_of_disjoint`, `read_write_of_ne`.
* the block codec: the constants of `mm.c`, `pack`, `extractSize`, `extractAlloc`, the two
  previous-block flags, and `roundUp`. A header built by `pack` decodes to what was packed
  (`extractSize_pack`, `extractAlloc_pack`, `preAlloc_pack`, `preMin_pack`).

`size_t` arithmetic is `Nat` arithmetic with an explicit `% 2 ^ 64` where it can wrap.
-/

namespace SystemsLabs.Malloc

/-- Byte-addressed memory. -/
abbrev Mem := Nat → Fin 256

/-- Little-endian value of the `n` bytes from `a`. -/
def Mem.readBytes (m : Mem) (a : Nat) : Nat → Nat
  | 0 => 0
  | n + 1 => (m a).val + 256 * m.readBytes (a + 1) n

/-- The `word_t` load at `a`. -/
def Mem.read (m : Mem) (a : Nat) : Nat := m.readBytes a 8

/-- The `word_t` store of `v` at `a`. -/
def Mem.write (m : Mem) (a v : Nat) : Mem := fun x =>
  if a ≤ x ∧ x < a + 8 then ⟨v / 256 ^ (x - a) % 256, Nat.mod_lt _ (by decide)⟩ else m x

namespace Mem
variable (m : Mem)

theorem readBytes_lt (a n : Nat) : m.readBytes a n < 256 ^ n := by
  induction n generalizing a with
  | zero => simp [readBytes]
  | succ n ih =>
    have := (m a).isLt
    have := ih (a + 1)
    rw [readBytes, pow_succ]; omega

theorem read_lt (a : Nat) : m.read a < 2 ^ 64 := m.readBytes_lt a 8

theorem readBytes_congr {m' : Mem} (a n : Nat) (h : ∀ i < n, m' (a + i) = m (a + i)) :
    m'.readBytes a n = m.readBytes a n := by
  induction n generalizing a with
  | zero => rfl
  | succ n ih =>
    simp only [readBytes]
    rw [show m' a = m a from h 0 (by omega), ih (a + 1) fun i hi => by
      simpa [Nat.add_assoc, Nat.add_comm 1] using h (i + 1) (by omega)]

/-- A load determines the bytes it reads. -/
theorem readBytes_inj {m' : Mem} (a n : Nat) (h : m'.readBytes a n = m.readBytes a n) :
    ∀ i < n, m' (a + i) = m (a + i) := by
  induction n generalizing a with
  | zero => intro i hi; omega
  | succ n ih =>
    have h1 := (m a).isLt; have h2 := (m' a).isLt
    simp only [readBytes] at h
    have hd : (m' a).val = (m a).val := by omega
    intro i hi
    cases i with
    | zero => exact Fin.ext hd
    | succ i =>
      rw [show a + (i + 1) = a + 1 + i by omega]
      exact ih (a + 1) (by omega) i (by omega)

/-- Byte `k` of a load is the byte at `a + k`. -/
theorem readBytes_digit (a n k : Nat) (hk : k < n) :
    m.readBytes a n / 256 ^ k % 256 = (m (a + k)).val := by
  induction n generalizing a k with
  | zero => omega
  | succ n ih =>
    have := (m a).isLt
    cases k with
    | zero => simp only [readBytes, pow_zero, Nat.div_one, Nat.add_zero]; omega
    | succ k =>
      rw [readBytes, pow_succ', ← Nat.div_div_eq_div_mul,
        show ((m a).val + 256 * m.readBytes (a + 1) n) / 256 = m.readBytes (a + 1) n by omega,
        ih (a + 1) k (by omega), show a + 1 + k = a + (k + 1) by omega]

/-- Storing the word just loaded changes nothing. -/
@[simp] theorem write_read_self (a : Nat) : m.write a (m.read a) = m := by
  funext x
  by_cases hx : a ≤ x ∧ x < a + 8
  · have := m.readBytes_digit a 8 (x - a) (by omega)
    rw [show a + (x - a) = x by omega] at this
    exact (if_pos hx).trans (Fin.ext this)
  · exact if_neg hx

theorem readBytes_write (a v k n : Nat) (hkn : k + n ≤ 8) :
    (m.write a v).readBytes (a + k) n = v / 256 ^ k % 256 ^ n := by
  induction n generalizing k with
  | zero => simp [readBytes, Nat.mod_one]
  | succ n ih =>
    rw [readBytes, Nat.add_assoc, ih (k + 1) (by omega), pow_succ' 256 n, Nat.mod_mul,
      Nat.div_div_eq_div_mul, ← pow_succ]
    simp only [write, show a ≤ a + k ∧ a + k < a + 8 from ⟨by omega, by omega⟩, and_self, if_true,
      Nat.add_sub_cancel_left, Nat.add_assoc]

@[simp] theorem read_write_self (a v : Nat) : (m.write a v).read a = v % 2 ^ 64 := by
  simpa [read] using m.readBytes_write a v 0 8 (by omega)

/-- A store leaves every word it does not overlap unchanged. -/
theorem read_write_of_disjoint (a b v : Nat) (h : b + 8 ≤ a ∨ a + 8 ≤ b) :
    (m.write b v).read a = m.read a :=
  readBytes_congr m a 8 fun i hi => by simp only [write]; rw [if_neg (by omega)]

theorem read_write_of_ne (a b v : Nat) (ha : a % 8 = 0) (hb : b % 8 = 0) (hab : a ≠ b) :
    (m.write b v).read a = m.read a :=
  m.read_write_of_disjoint a b v (by omega)

end Mem

/-! ## Constants of `mm.c` -/

/-- Word and header size (bytes). -/
def wsize : Nat := 8
/-- Double word size (bytes). -/
def dsize : Nat := 2 * wsize
/-- Minimum block size (bytes). -/
def minBlockSize : Nat := dsize
def preAllocMark : Nat := 0x2
def preMinMark : Nat := 0x4
def chunksize : Nat := 2 ^ 12
def allocMask : Nat := 0x1
/-- `~(word_t)0xF`. -/
def sizeMask : Nat := 2 ^ 64 - 16
def MAX_SEG_LIST_LENGTH : Nat := 14

@[simp] theorem wsize_eq : wsize = 8 := rfl
@[simp] theorem dsize_eq : dsize = 16 := rfl
@[simp] theorem minBlockSize_eq : minBlockSize = 16 := rfl
@[simp] theorem chunksize_eq : chunksize = 4096 := rfl
@[simp] theorem MAX_SEG_LIST_LENGTH_eq : MAX_SEG_LIST_LENGTH = 14 := rfl

/-- The source's `max` on `size_t`. -/
protected def max (x y : Nat) : Nat := if x > y then x else y

/-- `round_up(size, n)`: `n * ((size + (n - 1)) / n)` in `size_t`; the sum wraps, the product
cannot exceed it. -/
def roundUp (size n : Nat) : Nat := n * ((size + (n - 1)) % 2 ^ 64 / n)

/-! ## Headers -/

/-- `pack(size, pre_min, pre_alloc, alloc)`. -/
def pack (size : Nat) (preMin preAlloc alloc : Bool) : Nat :=
  let word := size
  let word := if alloc then word ||| allocMask else word
  let word := if preAlloc then word ||| preAllocMark else word
  if preMin then word ||| preMinMark else word

def extractSize (word : Nat) : Nat := word &&& sizeMask

def extractAlloc (word : Nat) : Bool := word &&& allocMask != 0

/-- The `pre_alloc` bit of a header word (`get_pre_alloc` reads it). -/
def extractPreAlloc (word : Nat) : Bool := word &&& preAllocMark != 0

/-- The `pre_min` bit of a header word (`get_pre_min` reads it). -/
def extractPreMin (word : Nat) : Bool := word &&& preMinMark != 0

/-- The low four bits `pack` sets. -/
def flagBits (preMin preAlloc alloc : Bool) : Nat :=
  (if preMin then 4 else 0) + (if preAlloc then 2 else 0) + (if alloc then 1 else 0)

theorem flagBits_lt (pm pa al : Bool) : flagBits pm pa al < 2 ^ 4 := by
  cases pm <;> cases pa <;> cases al <;> decide

/-- On a 16-byte multiple, the `|=` of `pack` are additions. -/
theorem pack_eq (size : Nat) (pm pa al : Bool) (h : size % 16 = 0) :
    pack size pm pa al = size + flagBits pm pa al := by
  obtain ⟨q, rfl⟩ : ∃ q, size = 2 ^ 4 * q := ⟨size / 16, by omega⟩
  rw [Nat.mul_add_lt_is_or (flagBits_lt pm pa al)]
  cases pm <;> cases pa <;> cases al <;>
    simp [pack, flagBits, Nat.lor_assoc, allocMask, preAllocMark, preMinMark]

theorem testBit_header (q f j : Nat) (hf : f < 2 ^ 4) :
    (2 ^ 4 * q + f).testBit j = if j < 4 then f.testBit j else q.testBit (j - 4) :=
  Nat.testBit_mul_pow_two_add q hf j

theorem and_sizeMask_header (q f : Nat) (hq : q < 2 ^ 60) (hf : f < 2 ^ 4) :
    (2 ^ 4 * q + f) &&& sizeMask = 2 ^ 4 * q := by
  apply Nat.eq_of_testBit_eq
  intro j
  rw [Nat.testBit_and, testBit_header q f j hf, show sizeMask = 2 ^ 4 * (2 ^ 60 - 1) + 0 by decide,
    testBit_header _ _ j (by decide), Nat.testBit_mul_pow_two, Nat.testBit_two_pow_sub_one]
  by_cases hj : j < 4
  · simp [hj]
  · by_cases h64 : j - 4 < 60
    · simp [hj, h64]; omega
    · simp [hj, h64, Nat.testBit_lt_two_pow (lt_of_lt_of_le hq
        (Nat.pow_le_pow_right (by decide) (by omega : 60 ≤ j - 4)))]

theorem and_flag_header (q f i : Nat) (hf : f < 2 ^ 4) (hi : i < 4) :
    (2 ^ 4 * q + f) &&& 2 ^ i = f &&& 2 ^ i := by
  rw [Nat.and_two_pow, Nat.and_two_pow, testBit_header q f i hf, if_pos hi]

section Decode
variable {size : Nat} (pm pa al : Bool) (h16 : size % 16 = 0)
include h16

theorem pack_lt (hs : size < 2 ^ 64) : pack size pm pa al < 2 ^ 64 := by
  rw [pack_eq _ _ _ _ h16]; have := flagBits_lt pm pa al; omega

@[simp] theorem extractSize_pack (hs : size < 2 ^ 64) : extractSize (pack size pm pa al) = size := by
  obtain ⟨q, rfl⟩ : ∃ q, size = 2 ^ 4 * q := ⟨size / 16, by omega⟩
  rw [extractSize, pack_eq _ _ _ _ h16, and_sizeMask_header q _ (by omega) (flagBits_lt pm pa al)]

@[simp] theorem extractAlloc_pack : extractAlloc (pack size pm pa al) = al := by
  obtain ⟨q, rfl⟩ : ∃ q, size = 2 ^ 4 * q := ⟨size / 16, by omega⟩
  rw [extractAlloc, pack_eq _ _ _ _ h16, show allocMask = 2 ^ 0 from rfl,
    and_flag_header q _ 0 (flagBits_lt pm pa al) (by decide)]
  cases pm <;> cases pa <;> cases al <;> decide

@[simp] theorem preAlloc_pack : extractPreAlloc (pack size pm pa al) = pa := by
  obtain ⟨q, rfl⟩ : ∃ q, size = 2 ^ 4 * q := ⟨size / 16, by omega⟩
  rw [extractPreAlloc, pack_eq _ _ _ _ h16, show preAllocMark = 2 ^ 1 from rfl,
    and_flag_header q _ 1 (flagBits_lt pm pa al) (by decide)]
  cases pm <;> cases pa <;> cases al <;> decide

@[simp] theorem preMin_pack : extractPreMin (pack size pm pa al) = pm := by
  obtain ⟨q, rfl⟩ : ∃ q, size = 2 ^ 4 * q := ⟨size / 16, by omega⟩
  rw [extractPreMin, pack_eq _ _ _ _ h16, show preMinMark = 2 ^ 2 from rfl,
    and_flag_header q _ 2 (flagBits_lt pm pa al) (by decide)]
  cases pm <;> cases pa <;> cases al <;> decide

end Decode

/-- `get_size` reads a multiple of 16. -/
theorem extractSize_mod (w : Nat) : extractSize w % 16 = 0 := by
  rw [extractSize, show (16 : Nat) = 2 ^ 4 from rfl, ← Nat.and_pow_two_sub_one_eq_mod, Nat.and_assoc,
    show sizeMask &&& 2 ^ 4 - 1 = 0 by decide, Nat.and_zero]

theorem extractSize_le (w : Nat) : extractSize w ≤ w := Nat.and_le_left

/-- The header format of `mm.c` both ways: `pack` of a 16-byte multiple below `2 ^ 64` and three
flags is a word below `2 ^ 64` from which `extract_size` and the flag readers give them back, and
every word below `2 ^ 64` whose bit 3 is clear is `pack` of what they read from it. -/
theorem pack_extract_roundTrip :
    (∀ size pm pa al, size % 16 = 0 → size < 2 ^ 64 →
      pack size pm pa al < 2 ^ 64 ∧ extractSize (pack size pm pa al) = size ∧
        extractPreMin (pack size pm pa al) = pm ∧ extractPreAlloc (pack size pm pa al) = pa ∧
        extractAlloc (pack size pm pa al) = al) ∧
    ∀ w, w < 2 ^ 64 → w.testBit 3 = false →
      pack (extractSize w) (extractPreMin w) (extractPreAlloc w) (extractAlloc w) = w := by
  refine ⟨fun size pm pa al h16 hs => ⟨pack_lt pm pa al h16 hs, extractSize_pack pm pa al h16 hs,
    preMin_pack pm pa al h16, preAlloc_pack pm pa al h16, extractAlloc_pack pm pa al h16⟩,
    fun w hw h3 => ?_⟩
  have hf : w % 16 < 8 := by
    rw [Nat.testBit_to_div_mod] at h3
    simp at h3
    omega
  obtain ⟨q, f, rfl, hf8⟩ : ∃ q f, w = 2 ^ 4 * q + f ∧ f < 8 := ⟨w / 16, w % 16, by omega, hf⟩
  have hflags : ∀ f < 8, flagBits (f &&& 2 ^ 2 != 0) (f &&& 2 ^ 1 != 0) (f &&& 2 ^ 0 != 0) = f := by
    decide
  rw [extractSize, and_sizeMask_header q f (by omega) (by omega), extractPreMin, extractPreAlloc,
    extractAlloc, show preMinMark = 2 ^ 2 from rfl, show preAllocMark = 2 ^ 1 from rfl,
    show allocMask = 2 ^ 0 from rfl, and_flag_header q f 2 (by omega) (by decide),
    and_flag_header q f 1 (by omega) (by decide), and_flag_header q f 0 (by omega) (by decide),
    pack_eq _ _ _ _ (by omega), hflags f hf8]

end SystemsLabs.Malloc
