import SystemsLabs.Cache.Lru
import Mathlib.Algebra.BigOperators.Group.List
import Mathlib.Algebra.BigOperators.Ring.List
import Mathlib.Algebra.Order.BigOperators.Group.List

/-!
# The counters of `csim.c` over whole traces

Whatever the trace, `csim`'s counters hold exact counts reduced mod `2 ^ 64`, and the exact
counts balance (`processTraceFile_balance`): every access adds one to `hits + misses`, an `M`
access two; every miss fills an invalid line or evicts a valid one, so the evictions are the
misses less the lines filled, which stay valid to the end; and each eviction writes back at most
one block of `2 ^ b` bytes. While no count reaches `2 ^ 64` the counters `csim` prints are the
exact ones and balance (`csim_counts`).

Write-back loses and invents nothing (`csim_writeBack_le`): a line becomes dirty only on a store,
and stays so until its eviction writes it back, so the blocks written back on eviction and the
dirty blocks left at the end are at most one per `S` or `M` access. The bound holds of the
printed counters on every trace, since a wrapped counter is at most the exact count. The count of
dirty lines (`dirtyLines`) includes invalid ones: a fill keeps the dirty bit of the invalid line
it takes.
-/

namespace SystemsLabs.Cache

/-- The valid lines among the first `E` of a set. -/
def validLines (set : Nat → CacheLine) (E : Nat) : Nat :=
  (List.range E).countP fun j => (set j).valid

def cacheValidLines (c : CacheSim) (s E : Nat) : Nat :=
  ((List.range (2 ^ s)).map fun i => validLines (c i) E).sum

@[simp] theorem cacheValidLines_createCache (s E : Nat) : cacheValidLines createCache s E = 0 := by
  simp [cacheValidLines, validLines, createCache]

/-- What an access adds to `hits + misses`. -/
def accessWeight (operation : Char) : Nat := if operation = 'M' then 2 else 1

/-- The lines among the first `E` of a set whose dirty bit is set, valid or not. -/
def dirtyLines (set : Nat → CacheLine) (E : Nat) : Nat :=
  (List.range E).countP fun j => (set j).dirty

def cacheDirtyLines (c : CacheSim) (s E : Nat) : Nat :=
  ((List.range (2 ^ s)).map fun i => dirtyLines (c i) E).sum

@[simp] theorem cacheDirtyLines_createCache (s E : Nat) : cacheDirtyLines createCache s E = 0 := by
  simp [cacheDirtyLines, dirtyLines, createCache]

theorem countP_range_update (p : CacheLine → Bool) (set : Nat → CacheLine) {j E : Nat}
    (L : CacheLine) (h : j < E) :
    ((List.range E).countP fun i => p (Function.update set j L i)) + (if p (set j) then 1 else 0) =
      ((List.range E).countP fun i => p (set i)) + if p L then 1 else 0 := by
  induction E with
  | zero => omega
  | succ E ih =>
    simp only [List.range_succ, List.countP_append, List.countP_singleton]
    by_cases hj : j = E
    · subst hj
      rw [List.countP_congr fun i hi => by rw [Function.update_noteq (by simp at hi; omega)],
        Function.update_same]
      omega
    · rw [Function.update_noteq (Ne.symm hj)]
      have := ih (by omega)
      omega

theorem sum_range_update {β : Type} (g : β → Nat) (c : Nat → β) {k n : Nat} (x : β)
    (h : k < n) :
    ((List.range n).map fun i => g (Function.update c k x i)).sum + g (c k) =
      ((List.range n).map fun i => g (c i)).sum + g x := by
  induction n with
  | zero => omega
  | succ n ih =>
    simp only [List.range_succ, List.map_append, List.sum_append, List.map_cons, List.map_nil,
      List.sum_cons, List.sum_nil, Nat.add_zero]
    by_cases hk : k = n
    · subst hk
      rw [List.map_congr_left fun i hi => by
          rw [Function.update_noteq (by simp at hi; omega)], Function.update_same]
      omega
    · rw [Function.update_noteq (Ne.symm hk)]
      have := ih (by omega)
      omega

theorem validLines_congr {set set' : Nat → CacheLine} {E : Nat}
    (h : ∀ j < E, (set j).valid = (set' j).valid) : validLines set E = validLines set' E :=
  List.countP_congr fun j hj => by rw [h j (List.mem_range.1 hj)]

theorem validLines_update_valid (set : Nat → CacheLine) {j E : Nat} {L : CacheLine} (h : j < E)
    (hv : L.valid = (set j).valid) : validLines (Function.update set j L) E = validLines set E := by
  have := countP_range_update CacheLine.valid set L h
  rw [hv] at this
  exact Nat.add_right_cancel this

theorem validLines_update_fill (set : Nat → CacheLine) {j E : Nat} {L : CacheLine} (h : j < E)
    (hj : (set j).valid = false) (hL : L.valid = true) :
    validLines (Function.update set j L) E = validLines set E + 1 := by
  have := countP_range_update CacheLine.valid set L h
  rw [hj, hL] at this
  simpa using this

theorem cacheValidLines_update {c : CacheSim} {E k n : Nat} (set : Nat → CacheLine) (h : k < n) :
    ((List.range n).map fun i => validLines (Function.update c k set i) E).sum +
        validLines (c k) E =
      ((List.range n).map fun i => validLines (c i) E).sum + validLines set E :=
  sum_range_update (fun set => validLines set E) c set h

theorem dirtyLines_update_le (set : Nat → CacheLine) {j E : Nat} {L : CacheLine} (h : j < E)
    (op : Char) (hL : L.dirty = true → isStore op = true ∨ (set j).dirty = true) :
    dirtyLines (Function.update set j L) E ≤ dirtyLines set E + if isStore op then 1 else 0 := by
  have := countP_range_update CacheLine.dirty set L h
  unfold dirtyLines
  revert hL this
  cases L.dirty <;> cases isStore op <;> cases (set j).dirty <;> simp <;> omega

theorem scanSet_some (set : Nat → CacheLine) (tag : Nat) :
    ∀ k i e j, (scanSet set tag k i e).1 = some j → j < i + k ∧ (set j).valid = true
  | 0, _, _, _, h => by simp [scanSet] at h
  | k + 1, i, e, j, h => by
    rw [scanSet] at h
    split_ifs at h with hv ht
    · cases h; exact ⟨by omega, hv⟩
    all_goals have := scanSet_some set tag k (i + 1) _ j h; exact ⟨by omega, this.2⟩

/-- One access: the counters are exact counts, wrapped. `hits + misses` grows by the access's
weight; valid lines and evictions grow by one between them exactly on a miss; at most one block
is written back, on an eviction, and the dirty lines and the blocks written back grow by at most
one between them, on a store. -/
theorem accessSet_counts {E b : Nat} (hE : 1 ≤ E) (hb : b ≤ 30) (set : Nat → CacheLine)
    (stats : CsimStats) (tag : Nat) (operation : Char) :
    let r := accessSet set stats.wrap E b tag operation
    ∃ h m e d : Nat, r.2 = CsimStats.wrap ⟨stats.hits + h, stats.misses + m,
        stats.evictions + e, stats.dirtyBytes, stats.dirtyEvictions + 2 ^ b * d⟩ ∧
      h + m = accessWeight operation ∧ validLines r.1 E + e = validLines set E + m ∧ d ≤ e ∧
      dirtyLines r.1 E + d ≤ dirtyLines set E + if isStore operation then 1 else 0 := by
  have hinc : ∀ set', validLines (incrementLru set' E) E = validLines set' E := fun _ =>
    validLines_congr fun _ _ => by simp
  have hincd : ∀ set', dirtyLines (incrementLru set' E) E = dirtyLines set' E := fun _ =>
    List.countP_congr fun _ _ => by simp
  have hw : (if operation = 'M' then 1 else 0) + 1 = accessWeight operation := by
    unfold accessWeight; split_ifs <;> rfl
  simp only [accessSet, hinc, hincd]
  cases h1 : (scanSet set tag E 0 none).1 with
  | some i =>
    -- a hit: the line found stays valid, and is dirty after a store
    obtain ⟨hi, hv⟩ := scanSet_some set tag E 0 none i h1
    have hd := dirtyLines_update_le set (Nat.zero_add E ▸ hi) operation
      (L := { set i with lru := 0, dirty := if isStore operation then true else (set i).dirty })
      (by split_ifs <;> simp_all)
    simp only [h1]
    rw [validLines_update_valid set (Nat.zero_add E ▸ hi)]
    · exact ⟨accessWeight operation, 0, 0, 0, by simp [CsimStats.wrap, addULong, accessWeight],
        by omega, rfl, le_rfl, by simpa using hd⟩
    · rfl
  | none =>
    have hno : ∀ j, 0 ≤ j → j < 0 + E → (set j).valid → (set j).tag ≠ tag := fun j _ hj hv ht => by
      obtain ⟨j', h, -⟩ := scanSet_hit set tag E 0 none j (Nat.zero_le _) hj hv ht
      rw [h1] at h; cases h
    obtain ⟨-, h2, h3⟩ := scanSet_miss set tag E 0 none hno
    simp only [h1, fillLine]
    cases h4 : (scanSet set tag E 0 none).2 with
    | some e =>
      -- a miss that fills the first invalid line
      obtain ⟨he, hv⟩ := (h2 e h4).resolve_left (by simp)
      have hd := dirtyLines_update_le set (Nat.zero_add E ▸ he) operation
        (L := ⟨true, tag, 0, if isStore operation then true else (set e).dirty⟩)
        (by split_ifs <;> simp_all)
      simp only
      rw [validLines_update_fill set (Nat.zero_add E ▸ he) hv rfl]
      exact ⟨_, 1, 0, 0, by simp [CsimStats.wrap, addULong], hw, rfl, le_rfl, by simpa using hd⟩
    | none =>
      -- a miss that evicts a valid line, writing it back when dirty
      obtain ⟨hm, -⟩ := maxLruIndex_spec set E hE
      have hvm := (h3 h4).2 (maxLruIndex set E) (Nat.zero_le _) (by omega)
      have hd := countP_range_update CacheLine.dirty set ⟨true, tag, 0, isStore operation⟩ hm
      simp only
      rw [validLines_update_valid set hm hvm.symm]
      by_cases hdm : (set (maxLruIndex set E)).dirty
      · simp only [hdm, if_true] at hd ⊢
        exact ⟨_, 1, 1, 1, by simp [CsimStats.wrap, addULong, toULong_intShiftOne hb], hw, rfl,
          le_rfl, by unfold dirtyLines; omega⟩
      · simp only [hdm, Bool.false_eq_true, if_false] at hd ⊢
        exact ⟨_, 1, 1, 0, by simp [CsimStats.wrap, addULong], hw, rfl, Nat.zero_le _,
          by unfold dirtyLines; omega⟩

theorem accessData_counts {s E b : Nat} (hE : 1 ≤ E) (hb : b ≤ 30) (c : CacheSim)
    (address : Nat) (stats : CsimStats) (operation : Char) :
    let r := accessData c address stats.wrap s E b operation
    ∃ h m e d : Nat, r.2 = CsimStats.wrap ⟨stats.hits + h, stats.misses + m,
        stats.evictions + e, stats.dirtyBytes, stats.dirtyEvictions + 2 ^ b * d⟩ ∧
      h + m = accessWeight operation ∧ cacheValidLines r.1 s E + e = cacheValidLines c s E + m ∧
      d ≤ e ∧
      cacheDirtyLines r.1 s E + d ≤ cacheDirtyLines c s E + if isStore operation then 1 else 0 := by
  simp only [accessData, setIndex_eq]
  set k := (address >>> b) % 2 ^ s
  have hk : k < 2 ^ s := Nat.mod_lt _ (Nat.two_pow_pos s)
  obtain ⟨h, m, e, d, h1, h2, h3, h4, h5⟩ :=
    accessSet_counts hE hb (c k) stats (address >>> (s + b)) operation
  have hc := cacheValidLines_update (c := c) (E := E)
    (accessSet (c k) stats.wrap E b (address >>> (s + b)) operation).1 hk
  have hd := sum_range_update (fun set => dirtyLines set E) c
    (accessSet (c k) stats.wrap E b (address >>> (s + b)) operation).1 hk
  unfold cacheValidLines cacheDirtyLines
  exact ⟨h, m, e, d, h1, h2, by omega, h4, by simp only at hd; omega⟩

/-- Along a trace, from any cache and any counters, the counters are the exact counts wrapped,
and the exact counts balance. -/
theorem processTraceFile_balance {s E b : Nat} (hE : 1 ≤ E) (hb : b ≤ 30) :
    ∀ (trace : List (Char × Nat)) (c : CacheSim) (stats : CsimStats),
      let r := processTraceFile c stats.wrap s E b trace
      ∃ h m e d : Nat, r.2 = CsimStats.wrap ⟨stats.hits + h, stats.misses + m,
          stats.evictions + e, stats.dirtyBytes, stats.dirtyEvictions + 2 ^ b * d⟩ ∧
        h + m = (trace.map fun a => accessWeight a.1).sum ∧
        cacheValidLines r.1 s E + e = cacheValidLines c s E + m ∧ d ≤ e ∧
        cacheDirtyLines r.1 s E + d ≤ cacheDirtyLines c s E + trace.countP fun a => isStore a.1
  | [], c, stats => ⟨0, 0, 0, 0, rfl, rfl, rfl, le_rfl, le_rfl⟩
  | (operation, address) :: trace, c, stats => by
    obtain ⟨h, m, e, d, h1, h2, h3, h4, h5⟩ :=
      accessData_counts (s := s) hE hb c address stats operation
    obtain ⟨h', m', e', d', g1, g2, g3, g4, g5⟩ := processTraceFile_balance (s := s) hE hb trace
      (accessData c address stats.wrap s E b operation).1
      ⟨stats.hits + h, stats.misses + m, stats.evictions + e, stats.dirtyBytes,
        stats.dirtyEvictions + 2 ^ b * d⟩
    simp only [processTraceFile, List.map_cons, List.sum_cons, List.countP_cons]
    rw [h1]
    refine ⟨h + h', m + m', e + e', d + d', ?_, by omega, by omega, by omega, by omega⟩
    rw [g1, Nat.mul_add]
    simp only [Nat.add_assoc]

theorem length_le_sum_accessWeight (trace : List (Char × Nat)) :
    trace.length ≤ (trace.map fun a => accessWeight a.1).sum := by
  induction trace with
  | nil => rfl
  | cons a trace ih =>
    simp only [List.length_cons, List.map_cons, List.sum_cons]
    have : 1 ≤ accessWeight a.1 := by unfold accessWeight; split_ifs <;> decide
    omega

theorem setDirtyBytes_le (set : Nat → CacheLine) (E : Nat) {b : Nat} (hb : b ≤ 30) :
    setDirtyBytes set E b ≤ dirtyLines set E * 2 ^ b := by
  unfold setDirtyBytes dirtyLines
  rw [← List.countP_eq_length_filter, toULong_intShiftOne hb]
  exact Nat.mul_le_mul_right _ (List.countP_mono_left fun j _ h => by simp_all)

/-- Every byte `csim` reports as written back, evicted dirty (`dirty_evictions`) or still dirty
in the final cache (`dirty_bytes`), was dirtied by a store: over every trace, for every cache
with at least one line per set, the two together are at most `2 ^ b` bytes per `S` or `M`
access. -/
theorem csim_writeBack_le {s E b : Nat} (hE : 1 ≤ E) (hs : s ≤ 30) (hb : b ≤ 30)
    (trace : List (Char × Nat)) :
    (csim s E b trace).dirtyBytes + (csim s E b trace).dirtyEvictions ≤
      2 ^ b * trace.countP fun a => isStore a.1 := by
  obtain ⟨_, _, _, d, h1, -, -, -, h5⟩ := processTraceFile_balance (s := s) hE hb trace
    createCache ⟨0, 0, 0, 0, 0⟩
  set r := processTraceFile createCache ⟨0, 0, 0, 0, 0⟩ s E b trace
  simp only [CsimStats.wrap_zero, cacheDirtyLines_createCache, Nat.zero_add] at h1 h5
  have hle : ((List.range (2 ^ s)).map fun i => setDirtyBytes (r.1 i) E b).sum ≤
      cacheDirtyLines r.1 s E * 2 ^ b := by
    unfold cacheDirtyLines
    rw [← List.sum_map_mul_right]
    exact List.sum_le_sum fun i _ => setDirtyBytes_le (r.1 i) E hb
  have hcsim : (csim s E b trace).dirtyBytes + (csim s E b trace).dirtyEvictions =
      addULong r.2.dirtyBytes ((List.range (2 ^ s)).map fun i => setDirtyBytes (r.1 i) E b).sum +
        r.2.dirtyEvictions := by
    simp only [csim, intShiftOne_toNat hs]
  rw [hcsim, h1]
  simp only [CsimStats.wrap_dirtyBytes, CsimStats.wrap_dirtyEvictions, Nat.zero_mod, addULong,
    Nat.zero_add]
  calc _ ≤ cacheDirtyLines r.1 s E * 2 ^ b + 2 ^ b * d :=
        Nat.add_le_add ((Nat.mod_le _ _).trans hle) (Nat.mod_le _ _)
    _ = 2 ^ b * (cacheDirtyLines r.1 s E + d) := by rw [Nat.mul_comm, Nat.mul_add]
    _ ≤ 2 ^ b * trace.countP fun a => isStore a.1 := Nat.mul_le_mul_left _ h5

theorem csim_writeBack_le_storeLoad :
    1 ≤ 1 ∧ 0 ≤ 30 ∧ 4 ≤ 30 ∧ (csim 0 1 4 [('S', 0), ('L', 16), ('M', 16)]).dirtyBytes +
        (csim 0 1 4 [('S', 0), ('L', 16), ('M', 16)]).dirtyEvictions ≤
      2 ^ 4 * [('S', 0), ('L', 16), ('M', 16)].countP fun a => isStore a.1 :=
  ⟨le_rfl, by decide, by decide, csim_writeBack_le le_rfl (by decide) (by decide) _⟩

end SystemsLabs.Cache
