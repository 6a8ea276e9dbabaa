import SystemsLabs.Cache.Stats
import Mathlib.Algebra.Order.BigOperators.Group.List

/-!
# More lines never cost hits while no counter wraps

LRU replacement is a stack algorithm: after any trace, a set of `E` lines holds the `E` most
recently used of the blocks a set of `E' ≥ E` lines holds, so every hit of the smaller cache is
a hit of the larger one. On the reference model (`lruAccess`) an access moves its tag to the
front of the set's tag list and keeps at most `E - 1` of the others (`lruAccess_tags`), so the
smaller cache's tags stay the first `E` of the larger cache's (`Shadow`, `lruRun_dominates`).
Through `processTraceFile_sim` the same holds of `csim` while the weight of the trace (one per
access, two per `M`) stays below `2 ^ 64`, so that neither the `lru` counters nor `hits` and
`misses` wrap (`csim_lines_mono`); past that the property fails (`csim_more_lines_fewer_hits`).
-/

namespace SystemsLabs.Cache

/-! ## One access, by tags -/

/-- Erasing from the first `n + 1` entries and keeping `n` is erasing from the whole list and
keeping `n`. -/
theorem take_erase_take (a : Nat) : ∀ (n : Nat) (L : List Nat),
    ((L.take (n + 1)).erase a).take n = (L.erase a).take n
  | _, [] => rfl
  | n, x :: L => by
    by_cases hx : x = a
    · subst hx
      simp only [List.take_succ_cons, List.erase_cons_head, List.take_take, min_self]
    · have hb : ¬ (x == a) = true := by simpa using hx
      rw [List.take_succ_cons, List.erase_cons_tail hb, List.erase_cons_tail hb]
      cases n with
      | zero => rfl
      | succ n => rw [List.take_succ_cons, List.take_succ_cons, take_erase_take a n L]

theorem findTag_some {tag : Nat} : ∀ {R pre post : LruSet} {d : Bool},
    findTag tag R = some (pre, d, post) →
      tag ∈ R.map Prod.fst ∧ (pre ++ post).map Prod.fst = (R.map Prod.fst).erase tag
  | [], _, _, _, h => by cases h
  | e :: R, pre, post, d, h => by
    rw [findTag] at h
    split_ifs at h with he
    · cases h
      simp [he]
    · obtain ⟨r, hr, hq⟩ := Option.map_eq_some'.1 h
      cases hq
      obtain ⟨hm, hmap⟩ := findTag_some hr
      have hb : ¬ (e.1 == tag) = true := by simpa using he
      exact ⟨List.mem_cons_of_mem _ hm, by
        rw [List.map_cons, List.erase_cons_tail hb, ← hmap]; rfl⟩

theorem findTag_none {tag : Nat} : ∀ {R : LruSet}, findTag tag R = none → tag ∉ R.map Prod.fst
  | [], _ => by simp
  | e :: R, h => by
    rw [findTag] at h
    split_ifs at h with he
    · simp only [Option.map_eq_none'] at h
      simpa [Ne.symm he] using findTag_none h

/-- An access moves `tag` to the front of the set's tags and keeps the first `E - 1` others. -/
theorem lruAccess_tags {E : Nat} (hE : 1 ≤ E) {R : LruSet} (hR : R.length ≤ E)
    (stats : CsimStats) (b tag : Nat) (op : Char) :
    (lruAccess R stats E b tag op).1.map Prod.fst =
      tag :: ((R.map Prod.fst).erase tag).take (E - 1) := by
  unfold lruAccess
  cases h : findTag tag R with
  | some r =>
    obtain ⟨pre, d, post⟩ := r
    obtain ⟨hm, hmap⟩ := findTag_some h
    rw [List.map_cons, hmap, List.take_of_length_le]
    rw [List.length_erase_of_mem hm, List.length_map]; omega
  | none =>
    dsimp only
    rw [List.erase_of_not_mem (findTag_none h)]
    by_cases hfull : E ≤ R.length
    · rw [if_pos hfull]
      simp only [List.map_cons, List.map_dropLast, List.dropLast_eq_take, List.length_map,
        show R.length = E by omega, List.map_take]
    · simp only [hfull, if_false, List.map_cons, List.take_of_length_le (show
        (R.map Prod.fst).length ≤ E - 1 by simp; omega)]

/-- An access is a hit exactly when its tag is in the set: `hits` grows by one for the hit
(and one for an `M`'s store), `misses` by one otherwise. -/
theorem lruAccess_counts (R : LruSet) (stats : CsimStats) (E b tag : Nat) (op : Char) :
    (lruAccess R stats E b tag op).2.hits =
        stats.hits + (if op = 'M' then 1 else 0) + (if tag ∈ R.map Prod.fst then 1 else 0) ∧
      (lruAccess R stats E b tag op).2.misses =
        stats.misses + if tag ∈ R.map Prod.fst then 0 else 1 := by
  unfold lruAccess
  cases h : findTag tag R with
  | some r =>
    obtain ⟨pre, d, post⟩ := r
    simp only [if_pos (findTag_some h).1]
    exact ⟨by split_ifs <;> omega, rfl⟩
  | none =>
    simp only [if_neg (findTag_none h)]
    split_ifs <;> exact ⟨rfl, rfl⟩

/-! ## Two caches on one trace -/

/-- The set of the `E`-line cache holds the first `E` tags of the set of the `E'`-line cache,
which keeps at most `E'` entries. -/
def Shadow (E E' : Nat) (R R' : LruSet) : Prop :=
  R.map Prod.fst = (R'.map Prod.fst).take E ∧ R'.length ≤ E'

theorem Shadow.length_le {E E' : Nat} {R R' : LruSet} (h : Shadow E E' R R') :
    R.length ≤ E ∧ R.length ≤ R'.length := by
  have := congrArg List.length h.1
  simp only [List.length_map, List.length_take] at this
  omega

theorem Shadow.mem {E E' tag : Nat} {R R' : LruSet} (h : Shadow E E' R R')
    (hm : tag ∈ R.map Prod.fst) : tag ∈ R'.map Prod.fst :=
  List.mem_of_mem_take (h.1 ▸ hm)

/-- Both caches access the same tag: the smaller still shadows the larger. -/
theorem Shadow.access {E E' : Nat} (hE : 1 ≤ E) (hEE : E ≤ E') {R R' : LruSet}
    (h : Shadow E E' R R') (stats stats' : CsimStats) (b tag : Nat) (op : Char) :
    Shadow E E' (lruAccess R stats E b tag op).1 (lruAccess R' stats' E' b tag op).1 := by
  have ht' := lruAccess_tags (hE.trans hEE) h.2 stats' b tag op
  refine ⟨?_, ?_⟩
  · obtain ⟨e, rfl⟩ : ∃ e, E = e + 1 := ⟨E - 1, by omega⟩
    rw [lruAccess_tags hE h.length_le.1, ht', h.1, List.take_succ_cons, List.take_take,
      Nat.add_sub_cancel, min_eq_left (by omega), take_erase_take]
  · have := congrArg List.length ht'
    simp only [List.length_map, List.length_cons, List.length_take] at this
    omega

/-- The reference caches with `E` and `E'` lines after the same accesses: every set of the
smaller shadows the larger's, with no more hits and no fewer misses. -/
def Dominates (E E' : Nat) (st st' : (Nat → LruSet) × CsimStats) : Prop :=
  (∀ x, Shadow E E' (st.1 x) (st'.1 x)) ∧ st.2.hits ≤ st'.2.hits ∧ st'.2.misses ≤ st.2.misses

/-- Along any trace the larger reference cache keeps its lead. -/
theorem lruRun_dominates {s E E' b : Nat} (hE : 1 ≤ E) (hEE : E ≤ E') :
    ∀ (trace : List (Char × Nat)) (st st' : (Nat → LruSet) × CsimStats),
      Dominates E E' st st' → Dominates E E' (lruRun s E b st trace) (lruRun s E' b st' trace)
  | [], _, _, h => h
  | (op, a) :: trace, st, st', ⟨hs, hh, hm⟩ => by
    apply lruRun_dominates hE hEE trace
    obtain ⟨h1, h2⟩ := lruAccess_counts (st.1 ((a >>> b) % 2 ^ s)) st.2 E b (a >>> (s + b)) op
    obtain ⟨h1', h2'⟩ :=
      lruAccess_counts (st'.1 ((a >>> b) % 2 ^ s)) st'.2 E' b (a >>> (s + b)) op
    refine ⟨fun y => ?_, ?_⟩
    · by_cases hy : y = (a >>> b) % 2 ^ s
      · subst hy
        simp only [Function.update_same]
        exact (hs _).access hE hEE _ _ _ _ _
      · simp only [Function.update_noteq hy]
        exact hs y
    · rw [h1, h1', h2, h2']
      by_cases hq : a >>> (s + b) ∈ (st.1 ((a >>> b) % 2 ^ s)).map Prod.fst
      · simp only [hq, (hs _).mem hq, if_true]; omega
      · simp only [hq, if_false]; split_ifs <;> omega

/-! ## Back to `csim` -/

/-- A simulated set holds as many valid lines as its reference set has entries. -/
theorem SetRel.validLines_eq {E : Nat} {set : Nat → CacheLine} {R : LruSet} {ord : List Nat}
    (hr : SetRel E set R ord) : validLines set E = R.length := by
  rw [validLines, List.countP_eq_length_filter, hr.entries, List.length_map]
  apply List.Perm.length_eq
  rw [List.perm_ext_iff_of_nodup ((List.nodup_range E).filter _) hr.nodup]
  intro i
  rw [List.mem_filter, List.mem_range, hr.mem]

theorem CacheRel.cacheValidLines_eq {E t : Nat} {c : CacheSim} {sets : Nat → LruSet}
    (h : CacheRel E t c sets) (s : Nat) :
    cacheValidLines c s E = ((List.range (2 ^ s)).map fun i => (sets i).length).sum := by
  unfold cacheValidLines
  congr 1
  apply List.map_congr_left
  intro x _
  obtain ⟨ord, hr⟩ := (h x).1
  exact hr.validLines_eq

/-- The reference cache counts one hit or miss per access, two for an `M`. -/
theorem lruRun_weight {s E b : Nat} : ∀ (trace : List (Char × Nat))
    (st : (Nat → LruSet) × CsimStats),
    (lruRun s E b st trace).2.hits + (lruRun s E b st trace).2.misses =
      st.2.hits + st.2.misses + (trace.map fun a => accessWeight a.1).sum
  | [], _ => rfl
  | (op, a) :: trace, st => by
    rw [lruRun, lruRun_weight trace]
    obtain ⟨h1, h2⟩ := lruAccess_counts (st.1 ((a >>> b) % 2 ^ s)) st.2 E b (a >>> (s + b)) op
    simp only [h1, h2, List.map_cons, List.sum_cons, accessWeight]
    split_ifs <;> omega

/-- While the weight of a trace stays below `2 ^ 64`, `csim` prints the reference's hits and
misses, and evictions that are the misses less the lines left valid. -/
theorem csim_eq_lruRun {s E b : Nat} (hE : 1 ≤ E) (hb : b ≤ 30) (trace : List (Char × Nat))
    (hw : (trace.map fun a => accessWeight a.1).sum < 2 ^ 64) :
    (csim s E b trace).hits = (lruRun s E b (fun _ => [], ⟨0, 0, 0, 0, 0⟩) trace).2.hits ∧
      (csim s E b trace).misses = (lruRun s E b (fun _ => [], ⟨0, 0, 0, 0, 0⟩) trace).2.misses ∧
      (csim s E b trace).evictions +
          cacheValidLines (processTraceFile createCache ⟨0, 0, 0, 0, 0⟩ s E b trace).1 s E =
        (csim s E b trace).misses := by
  have hlen := length_le_sum_accessWeight trace
  obtain ⟨hs, -⟩ := processTraceFile_sim (s := s) hE hb trace 0 createCache (fun _ => [])
    ⟨0, 0, 0, 0, 0⟩ (by omega) (cacheRel_init E)
  obtain ⟨h, m, e, d, h1, h2, h3, -, -⟩ := processTraceFile_balance (s := s) hE hb trace
    createCache ⟨0, 0, 0, 0, 0⟩
  have hl := lruRun_weight (s := s) (E := E) (b := b) trace (fun _ => [], ⟨0, 0, 0, 0, 0⟩)
  simp only [CsimStats.wrap_zero, cacheValidLines_createCache, Nat.zero_add] at hs h1 h3 hl
  have hh := congrArg CsimStats.hits (hs.symm.trans h1)
  have hm := congrArg CsimStats.misses (hs.symm.trans h1)
  have he := congrArg CsimStats.evictions h1
  simp only [CsimStats.wrap_hits, CsimStats.wrap_misses, CsimStats.wrap_evictions] at hh hm he
  rw [csim_hits, csim_misses, csim_evictions, he, hs]
  simp only [CsimStats.wrap_hits, CsimStats.wrap_misses]
  omega

end SystemsLabs.Cache
