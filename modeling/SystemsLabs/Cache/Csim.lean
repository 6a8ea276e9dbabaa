import Mathlib.Data.List.Basic
import Mathlib.Algebra.Order.Ring.Nat
import Mathlib.Tactic.NormNum

/-!
# The cache simulator `csim.c`

A cache is `cache_set *`, a set is `cache_line *`: here a function from set index to a function
from line index to `CacheLine`, updated in place by `Function.update`. `accessData` is
`access_data` with its three loops (the scan with `break`, the search for the largest `lru`, and
the final `lru++` over the set).

Every counter is an `unsigned long`, the fields of `cache_line` in `csim.c` and, in the lab's
`cachelab.h` (not part of the source), the five of `csim_stats_t`: each `++` and `+=` is
`addULong`, reduced mod `2 ^ 64`. The increment `1 << b` of `dirty_evictions` and
`dirty_bytes` is an `int` shift, `intShiftOne`, converted to `unsigned long` (`toULong`); C
defines it for `b ≤ 30` only, and the theorems about `csim` assume that. The `valid` and `dirty`
fields only ever hold `0` and `1` and are `Bool`s. Trace parsing and verbose printing are not
modelled: `processTraceFile` folds `accessData` over the parsed `(operation, address)` pairs.
-/

namespace SystemsLabs.Cache

structure CacheLine where
  valid : Bool
  tag : Nat
  lru : Nat
  dirty : Bool
  deriving DecidableEq, Repr

/-- `cache`: set index, then line index. -/
abbrev CacheSim := Nat → Nat → CacheLine

structure CsimStats where
  hits : Nat
  misses : Nat
  evictions : Nat
  dirtyBytes : Nat
  dirtyEvictions : Nat
  deriving DecidableEq, Repr

/-- `counter += n` on an `unsigned long`. -/
def addULong (counter n : Nat) : Nat := (counter + n) % 2 ^ 64

/-- The `int` expression `1 << n`. C defines it for `n ≤ 30`; beyond, this is what x86-64
computes, the count taken mod 32 and `1 << 31` the least `int`. -/
def intShiftOne (n : Nat) : Int := (BitVec.ofNat 32 1 <<< (n % 32)).toInt

/-- An `int` converted to `unsigned long`. -/
def toULong (v : Int) : Nat := (v % 2 ^ 64).toNat

example : toULong (intShiftOne 31) = 2 ^ 64 - 2 ^ 31 := by decide

theorem addULong_mod (x n : Nat) : addULong (x % 2 ^ 64) n = addULong x n :=
  Nat.mod_add_mod x _ n

theorem addULong_addULong (x m n : Nat) : addULong (addULong x m) n = addULong x (m + n) := by
  simp only [addULong, Nat.mod_add_mod, Nat.add_assoc]

theorem intShiftOne_of_le {n : Nat} (h : n ≤ 30) : intShiftOne n = 2 ^ n := by
  have hp : 2 ^ n < 2 ^ 31 := Nat.pow_lt_pow_right (by decide) (by omega)
  have hn : (BitVec.ofNat 32 1 <<< n).toNat = 2 ^ n := by
    rw [BitVec.toNat_shiftLeft, BitVec.toNat_ofNat, Nat.shiftLeft_eq]
    simp only [Nat.one_mod, Nat.one_mul]
    exact Nat.mod_eq_of_lt (by omega)
  rw [intShiftOne, Nat.mod_eq_of_lt (by omega : n < 32), BitVec.toInt_eq_toNat_cond, hn,
    if_pos (by omega)]
  norm_cast

theorem toULong_intShiftOne {n : Nat} (h : n ≤ 30) : toULong (intShiftOne n) = 2 ^ n := by
  have hp : 2 ^ n < 2 ^ 64 := Nat.pow_lt_pow_right (by decide) (by omega)
  rw [toULong, intShiftOne_of_le h, show (2 : Int) ^ n = ((2 ^ n : Nat) : Int) by norm_cast]
  generalize 2 ^ n = m at hp ⊢
  omega

theorem intShiftOne_toNat {n : Nat} (h : n ≤ 30) : (intShiftOne n).toNat = 2 ^ n := by
  rw [intShiftOne_of_le h, show (2 : Int) ^ n = ((2 ^ n : Nat) : Int) by norm_cast, Int.toNat_ofNat]

/-- What the `unsigned long` counters hold when the exact counts are `stats`. -/
def CsimStats.wrap (stats : CsimStats) : CsimStats :=
  ⟨stats.hits % 2 ^ 64, stats.misses % 2 ^ 64, stats.evictions % 2 ^ 64,
    stats.dirtyBytes % 2 ^ 64, stats.dirtyEvictions % 2 ^ 64⟩

@[simp] theorem CsimStats.wrap_zero : CsimStats.wrap ⟨0, 0, 0, 0, 0⟩ = ⟨0, 0, 0, 0, 0⟩ := rfl

@[simp] theorem CsimStats.wrap_hits (stats : CsimStats) : stats.wrap.hits = stats.hits % 2 ^ 64 :=
  rfl

@[simp] theorem CsimStats.wrap_misses (stats : CsimStats) :
    stats.wrap.misses = stats.misses % 2 ^ 64 := rfl

@[simp] theorem CsimStats.wrap_evictions (stats : CsimStats) :
    stats.wrap.evictions = stats.evictions % 2 ^ 64 := rfl

@[simp] theorem CsimStats.wrap_dirtyBytes (stats : CsimStats) :
    stats.wrap.dirtyBytes = stats.dirtyBytes % 2 ^ 64 := rfl

@[simp] theorem CsimStats.wrap_dirtyEvictions (stats : CsimStats) :
    stats.wrap.dirtyEvictions = stats.dirtyEvictions % 2 ^ 64 := rfl

/-- `create_cache(s, E, b)`: every line zeroed. -/
def createCache : CacheSim := fun _ _ => ⟨false, 0, 0, false⟩

/-- `operation == 'M' || operation == 'S'`. -/
def isStore (operation : Char) : Bool := operation = 'M' || operation = 'S'

/-- The first loop of `access_data` over lines `i .. i + k - 1`: the line that hits (the loop
`break`s there) and the first invalid line met, `empty_line`. -/
def scanSet (set : Nat → CacheLine) (tag : Nat) : Nat → Nat → Option Nat → Option Nat × Option Nat
  | 0, _, emptyLine => (none, emptyLine)
  | k + 1, i, emptyLine =>
    if (set i).valid then
      if (set i).tag = tag then (some i, emptyLine) else scanSet set tag k (i + 1) emptyLine
    else scanSet set tag k (i + 1) (if emptyLine = none then some i else emptyLine)

/-- `for (i = 1; i < E; i++) if (lru[i] > lru[max_lru_index]) max_lru_index = i;` -/
def maxLruIndex (set : Nat → CacheLine) (E : Nat) : Nat :=
  (List.range' 1 (E - 1)).foldl (fun m i => if (set i).lru > (set m).lru then i else m) 0

/-- The miss path: fill the empty line, or evict the line with the largest `lru`. -/
def fillLine (set : Nat → CacheLine) (stats : CsimStats) (E b tag : Nat) (operation : Char)
    (emptyLine : Option Nat) : (Nat → CacheLine) × CsimStats :=
  match emptyLine with
  | some e =>
    (Function.update set e
      ⟨true, tag, 0, if isStore operation then true else (set e).dirty⟩, stats)
  | none =>
    let stats := { stats with evictions := addULong stats.evictions 1 }
    let m := maxLruIndex set E
    let stats := if (set m).dirty then
      { stats with dirtyEvictions := addULong stats.dirtyEvictions (toULong (intShiftOne b)) }
      else stats
    (Function.update set m ⟨true, tag, 0, isStore operation⟩, stats)

/-- The last loop of `access_data`: `lru++` on every line of the set. -/
def incrementLru (set : Nat → CacheLine) (E : Nat) : Nat → CacheLine := fun i =>
  if i < E then { set i with lru := addULong (set i).lru 1 } else set i

/-- The body of `access_data` on the set `c[set_index]`, looked up for `tag`. -/
def accessSet (set : Nat → CacheLine) (stats : CsimStats) (E b tag : Nat) (operation : Char) :
    (Nat → CacheLine) × CsimStats :=
  let scan := scanSet set tag E 0 none
  let r :=
    match scan.1 with
    | some i =>
      (Function.update set i
        { set i with lru := 0, dirty := if isStore operation then true else (set i).dirty },
        { stats with hits := addULong stats.hits (if operation = 'M' then 2 else 1) })
    | none =>
      fillLine set { stats with misses := addULong stats.misses 1,
                                hits := addULong stats.hits (if operation = 'M' then 1 else 0) }
        E b tag operation scan.2
  (incrementLru r.1 E, r.2)

/-- `access_data(c, address, stats, s, E, b, operation, verbose)`. -/
def accessData (c : CacheSim) (address : Nat) (stats : CsimStats) (s E b : Nat)
    (operation : Char) : CacheSim × CsimStats :=
  let tag := address >>> (s + b)
  let setIndex := (address >>> b) &&& ((1 <<< s) - 1)
  let r := accessSet (c setIndex) stats E b tag operation
  (Function.update c setIndex r.1, r.2)

/-- `process_trace_file` on a parsed trace. -/
def processTraceFile (c : CacheSim) (stats : CsimStats) (s E b : Nat) :
    List (Char × Nat) → CacheSim × CsimStats
  | [] => (c, stats)
  | (operation, address) :: trace =>
    let r := accessData c address stats s E b operation
    processTraceFile r.1 r.2 s E b trace

/-- The inner loop of `main` over one set: `1 << b` bytes for each valid dirty line. -/
def setDirtyBytes (set : Nat → CacheLine) (E b : Nat) : Nat :=
  ((List.range E).filter fun j => (set j).valid && (set j).dirty).length * toULong (intShiftOne b)

/-- What `main` prints: the statistics after the trace, with the dirty bytes still cached. The
outer loop runs `i` from `0` while `i < (1 << s)`; the wrapping additions of the loop are taken
together, as one `addULong` of their sum. -/
def csim (s E b : Nat) (trace : List (Char × Nat)) : CsimStats :=
  let r := processTraceFile createCache ⟨0, 0, 0, 0, 0⟩ s E b trace
  let cached := ((List.range (intShiftOne s).toNat).map fun i => setDirtyBytes (r.1 i) E b).sum
  { r.2 with dirtyBytes := addULong r.2.dirtyBytes cached }

@[simp] theorem csim_hits (s E b : Nat) (trace : List (Char × Nat)) :
    (csim s E b trace).hits = (processTraceFile createCache ⟨0, 0, 0, 0, 0⟩ s E b trace).2.hits :=
  rfl

@[simp] theorem csim_misses (s E b : Nat) (trace : List (Char × Nat)) :
    (csim s E b trace).misses =
      (processTraceFile createCache ⟨0, 0, 0, 0, 0⟩ s E b trace).2.misses :=
  rfl

@[simp] theorem csim_evictions (s E b : Nat) (trace : List (Char × Nat)) :
    (csim s E b trace).evictions =
      (processTraceFile createCache ⟨0, 0, 0, 0, 0⟩ s E b trace).2.evictions :=
  rfl

end SystemsLabs.Cache
