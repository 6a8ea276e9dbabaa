import SystemsLabs.Cache.Csim

/-!
# More lines, more misses, once `lru` wraps

LRU replacement is a stack algorithm: a set of `E + 1` lines holds every tag a set of `E` lines
holds, so it misses at most as often. `csim` replaces the line with the largest `lru`, and its
`lru` counters are `unsigned long`s that wrap at `2 ^ 64`: a line left untouched for `2 ^ 64`
accesses to its set reads as just used. With `s = b = 0` (one set, the address is the tag), the
trace `beladyTrace` loads `1 2 1 3`, then `3` another `2 ^ 64 - 3` times, then `4 3 5 2`. The
three-line set evicts `1` for `4` (the counter of `2` has wrapped to `0`) and keeps `2`; the
four-line set still holds `1` and evicts `2` for `5`. The final load of `2` hits with three lines
and misses with four: `5` misses against `6`. The `hits` counter wraps too, to `0` against
`2 ^ 64 - 1`.

A run of hits on one line is computed in closed form (`hitRun`, `processTraceFile_load_hits`):
the trace is far too long to evaluate.
-/

namespace SystemsLabs.Cache

/-- The set after hits on line `i` only: `i` was used last, and every other line of the set
has aged by `n`. -/
def hitRun (set : Nat → CacheLine) (E i n : Nat) : Nat → CacheLine := fun j =>
  if j < E then (if j = i then { set j with lru := 1 } else { set j with lru := ((set j).lru + n) % 2 ^ 64 })
  else set j

@[simp] theorem hitRun_valid (set : Nat → CacheLine) (E i n j : Nat) :
    (hitRun set E i n j).valid = (set j).valid := by
  unfold hitRun; split_ifs <;> rfl

@[simp] theorem hitRun_tag (set : Nat → CacheLine) (E i n j : Nat) :
    (hitRun set E i n j).tag = (set j).tag := by
  unfold hitRun; split_ifs <;> rfl

theorem hitRun_hitRun (set : Nat → CacheLine) (E i n m : Nat) :
    hitRun (hitRun set E i n) E i m = hitRun set E i (n + m) := by
  funext j
  unfold hitRun
  split_ifs <;> simp [Nat.add_assoc]

/-- The scan reads only `valid` and `tag`. -/
theorem scanSet_congr {set set' : Nat → CacheLine}
    (h : ∀ j, (set' j).valid = (set j).valid ∧ (set' j).tag = (set j).tag) (tag : Nat) :
    ∀ k i e, scanSet set' tag k i e = scanSet set tag k i e
  | 0, _, _ => rfl
  | k + 1, i, e => by simp only [scanSet, (h i).1, (h i).2, scanSet_congr h tag k]

/-- A load that hits line `i`. -/
theorem accessSet_load_hit {set : Nat → CacheLine} {E b tag i : Nat} (stats : CsimStats)
    (hi : i < E) (hscan : (scanSet set tag E 0 none).1 = some i) :
    accessSet set stats E b tag 'L' = (hitRun set E i 1, { stats with hits := addULong stats.hits 1 }) := by
  simp only [accessSet, hscan]
  refine Prod.ext (funext fun j => ?_) rfl
  by_cases hj : j = i
  · subst hj; simp [incrementLru, hitRun, hi, isStore, addULong]
  · simp [incrementLru, hitRun, hj, addULong]

theorem processTraceFile_append (c : CacheSim) (stats : CsimStats) (s E b : Nat)
    (l₁ l₂ : List (Char × Nat)) :
    processTraceFile c stats s E b (l₁ ++ l₂) =
      processTraceFile (processTraceFile c stats s E b l₁).1
        (processTraceFile c stats s E b l₁).2 s E b l₂ := by
  induction l₁ generalizing c stats with
  | nil => rfl
  | cons x l ih => exact ih _ _

/-- `n + 1` loads of a tag that hits line `i` of the one set of a cache with `s = b = 0`. -/
theorem processTraceFile_load_hits {E a i : Nat} (hi : i < E) (rest : List (Char × Nat)) :
    ∀ (n : Nat) (c : CacheSim) (stats : CsimStats), (scanSet (c 0) a E 0 none).1 = some i →
      processTraceFile c stats 0 E 0 (List.replicate (n + 1) ('L', a) ++ rest) =
        processTraceFile (Function.update c 0 (hitRun (c 0) E i (n + 1)))
          { stats with hits := addULong stats.hits (n + 1) } 0 E 0 rest
  | 0, c, stats, hscan => by
    simp [processTraceFile, accessData, accessSet_load_hit stats hi hscan]
  | n + 1, c, stats, hscan => by
    rw [List.replicate_succ, List.cons_append, processTraceFile]
    simp only [accessData, Nat.shiftRight_zero, Nat.add_zero, Nat.shiftLeft_zero, Nat.sub_self,
      Nat.and_zero, accessSet_load_hit stats hi hscan]
    rw [processTraceFile_load_hits hi rest n _ _ (by
      rw [Function.update_same, scanSet_congr (fun j => ⟨hitRun_valid _ _ _ _ j,
        hitRun_tag _ _ _ _ j⟩)]
      exact hscan)]
    simp only [Function.update_same, Function.update_idem, hitRun_hitRun]
    rw [addULong_addULong, show 1 + (n + 1) = n + 1 + 1 by omega]

/-- The first four loads of `beladyTrace`. -/
def beladyPrefix : List (Char × Nat) := [('L', 1), ('L', 2), ('L', 1), ('L', 3)]

/-- The last four loads of `beladyTrace`. -/
def beladySuffix : List (Char × Nat) := [('L', 4), ('L', 3), ('L', 5), ('L', 2)]

/-- `1 2 1 3`, then `3` again `2 ^ 64 - 3` times, then `4 3 5 2`: loads in the one set of a
cache with `s = b = 0`. -/
def beladyTrace : List (Char × Nat) :=
  beladyPrefix ++ List.replicate (2 ^ 64 - 3) ('L', 3) ++ beladySuffix

/-- `beladyTrace` on a cache whose third line holds `3` after the first four loads: the long
run of hits in closed form, then the last four loads. -/
theorem processTraceFile_beladyTrace {E : Nat} (hE : 2 < E)
    (hscan : (scanSet ((processTraceFile createCache ⟨0, 0, 0, 0, 0⟩ 0 E 0 beladyPrefix).1 0) 3
      E 0 none).1 = some 2) :
    processTraceFile createCache ⟨0, 0, 0, 0, 0⟩ 0 E 0 beladyTrace =
      let r := processTraceFile createCache ⟨0, 0, 0, 0, 0⟩ 0 E 0 beladyPrefix
      processTraceFile (Function.update r.1 0 (hitRun (r.1 0) E 2 (2 ^ 64 - 3)))
        { r.2 with hits := addULong r.2.hits (2 ^ 64 - 3) } 0 E 0 beladySuffix := by
  rw [beladyTrace, List.append_assoc, processTraceFile_append,
    show 2 ^ 64 - 3 = 2 ^ 64 - 4 + 1 from rfl, processTraceFile_load_hits hE _ _ _ _ hscan]

/-- On `beladyTrace`, `csim` with four lines per set reports more misses than with three, 6
against 5; the `hits` counter, past `2 ^ 64`, reads `2 ^ 64 - 1` against `0`. -/
theorem csim_more_lines_fewer_hits :
    (csim 0 3 0 beladyTrace).hits = 0 ∧ (csim 0 4 0 beladyTrace).hits = 2 ^ 64 - 1 ∧
      (csim 0 3 0 beladyTrace).misses = 5 ∧ (csim 0 4 0 beladyTrace).misses = 6 := by
  rw [csim_hits, csim_hits, csim_misses, csim_misses,
    processTraceFile_beladyTrace (E := 3) (by decide) rfl,
    processTraceFile_beladyTrace (E := 4) (by decide) rfl]
  exact ⟨rfl, rfl, rfl, rfl⟩

end SystemsLabs.Cache
