import SystemsLabs.Cache.Csim
import Mathlib.Data.List.Sort
import Mathlib.Data.List.Perm.Subperm

/-!
# `csim` is a write-back, write-allocate LRU cache

The reference model keeps each set as a list of `(tag, dirty)` entries, most recently used first
(`lruAccess`); `lruCache` runs it over a trace and counts exactly. `csim_refines_lru` says that
for `E ≥ 1`, `s, b ≤ 30` and fewer than `2 ^ 64` accesses `csim` prints the statistics of the
reference model reduced mod `2 ^ 64` (`CsimStats.wrap`): its counters are `unsigned long`s, so
the two agree while the counts stay below `2 ^ 64`, and no longer beyond, as `2 ^ 63 + 1`
accesses `M` show (`csim_lru_hits_differ`).

The simulation relation `SetRel` reads a simulated set as a reference set: the valid lines, in
order of growing `lru`, are the entries. Along a run every `lru` stays below the number of
accesses, so the `lru` counters never wrap, and an access to a set first touches one line (its
`lru` becomes `0`, `Touched`) and then adds one to every counter (`Touched.bump`).
-/

namespace SystemsLabs.Cache

/-! ## The reference model -/

/-- A set of the reference cache: `(tag, dirty)` entries, most recently used first. -/
abbrev LruSet := List (Nat × Bool)

/-- The entries before and after the first entry with `tag`, and its dirty bit. -/
def findTag (tag : Nat) : LruSet → Option (LruSet × Bool × LruSet)
  | [] => none
  | e :: R =>
    if e.1 = tag then some ([], e.2, R) else (findTag tag R).map fun r => (e :: r.1, r.2.1, r.2.2)

/-- One access to a set: a hit moves the entry to the front, a miss inserts at the front and,
in a full set, evicts the last entry. -/
def lruAccess (R : LruSet) (stats : CsimStats) (E b tag : Nat) (op : Char) : LruSet × CsimStats :=
  match findTag tag R with
  | some (pre, d, post) =>
    ((tag, isStore op || d) :: (pre ++ post),
      { stats with hits := stats.hits + if op = 'M' then 2 else 1 })
  | none =>
    let stats := { stats with misses := stats.misses + 1,
                              hits := stats.hits + if op = 'M' then 1 else 0 }
    if E ≤ R.length then
      ((tag, isStore op) :: R.dropLast,
        { stats with evictions := stats.evictions + 1,
                     dirtyEvictions := stats.dirtyEvictions +
                       if (R.getLast?.map Prod.snd).getD false then 2 ^ b else 0 })
    else ((tag, isStore op) :: R, stats)

/-- The reference cache over a trace: set `(a >> b) mod 2 ^ s`, tag `a >> (s + b)`. -/
def lruRun (s E b : Nat) :
    (Nat → LruSet) × CsimStats → List (Char × Nat) → (Nat → LruSet) × CsimStats
  | st, [] => st
  | st, (op, a) :: trace =>
    let set := (a >>> b) % 2 ^ s
    let r := lruAccess (st.1 set) st.2 E b (a >>> (s + b)) op
    lruRun s E b (Function.update st.1 set r.1, r.2) trace

/-- The reference statistics, `2 ^ b` dirty bytes for each dirty entry left. -/
def lruCache (s E b : Nat) (trace : List (Char × Nat)) : CsimStats :=
  let r := lruRun s E b (fun _ => [], ⟨0, 0, 0, 0, 0⟩) trace
  { r.2 with dirtyBytes :=
      r.2.dirtyBytes + ((List.range (2 ^ s)).map fun i => ((r.1 i).filter (·.2)).length * 2 ^ b).sum }

@[simp] theorem lruCache_hits (s E b : Nat) (trace : List (Char × Nat)) :
    (lruCache s E b trace).hits = (lruRun s E b (fun _ => [], ⟨0, 0, 0, 0, 0⟩) trace).2.hits := rfl

/-! ## The loops of `access_data` -/

section Loops
variable (set : Nat → CacheLine) (tag : Nat)

/-- A line holding `tag` is found, and what is found holds `tag`. -/
theorem scanSet_hit : ∀ k i e j, i ≤ j → j < i + k → (set j).valid → (set j).tag = tag →
    ∃ j', (scanSet set tag k i e).1 = some j' ∧ j' < i + k ∧ (set j').valid ∧ (set j').tag = tag := by
  intro k
  induction k with
  | zero => intro i e j h₁ h₂; omega
  | succ k ih =>
    intro i e j h₁ h₂ hv ht
    rw [scanSet]
    by_cases hi : (set i).valid
    · by_cases hit : (set i).tag = tag
      · exact ⟨i, by simp [hi, hit], by omega, hi, hit⟩
      · have hj : i ≠ j := fun h => hit (h ▸ ht)
        obtain ⟨j', h, hlt, hv', ht'⟩ := ih (i + 1) e j (by omega) (by omega) hv ht
        exact ⟨j', by simpa [hi, hit] using h, by omega, hv', ht'⟩
    · have hj : i ≠ j := fun h => hi (h ▸ hv)
      obtain ⟨j', h, hlt, hv', ht'⟩ := ih (i + 1) _ j (by omega) (by omega) hv ht
      exact ⟨j', by simpa [hi] using h, by omega, hv', ht'⟩

/-- Without a line holding `tag`, the scan reports the first invalid line, or none when every
line is valid. -/
theorem scanSet_miss : ∀ k i e, (∀ j, i ≤ j → j < i + k → (set j).valid → (set j).tag ≠ tag) →
    (scanSet set tag k i e).1 = none ∧
    (∀ x, (scanSet set tag k i e).2 = some x → e = some x ∨ (x < i + k ∧ (set x).valid = false)) ∧
    ((scanSet set tag k i e).2 = none → e = none ∧ ∀ j, i ≤ j → j < i + k → (set j).valid) := by
  intro k
  induction k with
  | zero => intro i e _; simp only [scanSet]; exact ⟨trivial, fun x hx => .inl hx, fun hn => ⟨hn, by omega⟩⟩
  | succ k ih =>
    intro i e hno
    have hrest := fun e' => ih (i + 1) e' fun j h₁ h₂ => hno j (by omega) (by omega)
    rw [scanSet]
    by_cases hi : (set i).valid
    · have hit : ¬ (set i).tag = tag := hno i le_rfl (by omega) hi
      obtain ⟨h₁, h₂, h₃⟩ := hrest e
      simp only [hi, hit, if_true, if_false]
      refine ⟨h₁, fun x hx => (h₂ x hx).imp_right fun h => ⟨by omega, h.2⟩, fun hn => ?_⟩
      obtain ⟨he, hall⟩ := h₃ hn
      exact ⟨he, fun j hj₁ hj₂ => if hij : j = i then hij ▸ hi else hall j (by omega) (by omega)⟩
    · obtain ⟨h₁, h₂, h₃⟩ := hrest (if e = none then some i else e)
      simp only [hi, if_false, Bool.false_eq_true]
      refine ⟨h₁, fun x hx => ?_, fun hn => ?_⟩
      · rcases h₂ x hx with he | he
        · by_cases hen : e = none
          · simp only [hen, if_true, Option.some.injEq] at he
            exact .inr ⟨by omega, by simpa [he] using hi⟩
          · simp only [hen, if_false] at he; exact .inl he
        · exact .inr ⟨by omega, he.2⟩
      · obtain ⟨he, -⟩ := h₃ hn
        by_cases hen : e = none <;> simp [hen] at he

/-- `maxLruIndex` stays on a line of the set and ends on a largest counter. -/
theorem foldl_maxLru (l : List Nat) : ∀ m, let r := l.foldl (fun m i => if (set i).lru > (set m).lru then i else m) m
    (r = m ∨ r ∈ l) ∧ (set m).lru ≤ (set r).lru ∧ ∀ i ∈ l, (set i).lru ≤ (set r).lru := by
  induction l with
  | nil => intro m; simp
  | cons i l ih =>
    intro m
    simp only [List.foldl_cons, List.mem_cons, forall_eq_or_imp]
    by_cases hgt : (set i).lru > (set m).lru
    · simp only [hgt, if_true]
      obtain ⟨h₁, h₂, h₃⟩ := ih i
      exact ⟨.inr (h₁.elim .inl (.inr ·)), by omega, h₂, h₃⟩
    · simp only [hgt, if_false]
      obtain ⟨h₁, h₂, h₃⟩ := ih m
      exact ⟨h₁.imp_right .inr, h₂, by omega, h₃⟩

theorem maxLruIndex_spec (E : Nat) (hE : 1 ≤ E) :
    maxLruIndex set E < E ∧ ∀ j < E, (set j).lru ≤ (set (maxLruIndex set E)).lru := by
  obtain ⟨h₁, h₂, h₃⟩ := foldl_maxLru set (List.range' 1 (E - 1)) 0
  refine ⟨?_, fun j hj => ?_⟩
  · rcases h₁ with h | h
    · rw [maxLruIndex, h]; omega
    · rw [maxLruIndex]; simp only [List.mem_range'_1] at h; omega
  · rcases Nat.eq_zero_or_pos j with rfl | hj₀
    · exact h₂
    · exact h₃ j (by simp only [List.mem_range'_1]; omega)

end Loops

/-! ## The simulation relation -/

/-- `findTag` finds the first entry with the tag. -/
theorem findTag_eq (tag : Nat) (d : Bool) (post : LruSet) :
    ∀ pre : LruSet, (∀ e ∈ pre, e.1 ≠ tag) → findTag tag (pre ++ (tag, d) :: post) = some (pre, d, post) := by
  intro pre
  induction pre with
  | nil => intro _; simp [findTag]
  | cons e pre ih =>
    intro h
    rw [List.cons_append, findTag, if_neg (h e (List.mem_cons_self _ _)),
      ih fun e' he' => h e' (List.mem_cons_of_mem _ he')]
    rfl

theorem findTag_eq_none (tag : Nat) : ∀ R : LruSet, (∀ e ∈ R, e.1 ≠ tag) → findTag tag R = none := by
  intro R
  induction R with
  | nil => intro _; rfl
  | cons e R ih =>
    intro h
    simp only [findTag, h e (List.mem_cons_self _ _), if_false,
      ih fun e' he' => h e' (List.mem_cons_of_mem _ he'), Option.map_none']

/-- Lines `0 .. E - 1` hold the entries `R`: the valid lines are `ord`, their counters grow
along `ord`, invalid lines are clean and valid lines hold distinct tags. -/
structure SetRel (E : Nat) (set : Nat → CacheLine) (R : LruSet) (ord : List Nat) : Prop where
  nodup : ord.Nodup
  mem : ∀ i, i ∈ ord ↔ i < E ∧ (set i).valid
  entries : R = ord.map fun i => ((set i).tag, (set i).dirty)
  sorted : (ord.map fun i => (set i).lru).Sorted (· < ·)
  pos : ∀ i ∈ ord, 1 ≤ (set i).lru
  clean : ∀ i < E, (set i).valid = false → (set i).dirty = false
  tags : (ord.map fun i => (set i).tag).Nodup

/-- The set after line `j` is touched, before the `lru++` loop. -/
structure Touched (E : Nat) (set : Nat → CacheLine) (R : LruSet) (j : Nat) (o : List Nat) :
    Prop where
  nodup : (j :: o).Nodup
  mem : ∀ i, i ∈ j :: o ↔ i < E ∧ (set i).valid
  entries : R = (j :: o).map fun i => ((set i).tag, (set i).dirty)
  zero : (set j).lru = 0
  sorted : (o.map fun i => (set i).lru).Sorted (· < ·)
  pos : ∀ i ∈ o, 1 ≤ (set i).lru
  clean : ∀ i < E, (set i).valid = false → (set i).dirty = false
  tags : ((j :: o).map fun i => (set i).tag).Nodup

@[simp] theorem incrementLru_valid (set : Nat → CacheLine) (E i : Nat) :
    (incrementLru set E i).valid = (set i).valid := by
  unfold incrementLru; split <;> rfl

@[simp] theorem incrementLru_tag (set : Nat → CacheLine) (E i : Nat) :
    (incrementLru set E i).tag = (set i).tag := by
  unfold incrementLru; split <;> rfl

@[simp] theorem incrementLru_dirty (set : Nat → CacheLine) (E i : Nat) :
    (incrementLru set E i).dirty = (set i).dirty := by
  unfold incrementLru; split <;> rfl

theorem incrementLru_lru {set : Nat → CacheLine} {E i : Nat} (hi : i < E)
    (h : (set i).lru + 1 < 2 ^ 64) : (incrementLru set E i).lru = (set i).lru + 1 := by
  simp only [incrementLru, if_pos hi, addULong]; exact Nat.mod_eq_of_lt h

/-- The `lru++` loop turns a touched set into a related one, the touched line first. -/
theorem Touched.bump {E : Nat} {set : Nat → CacheLine} {R : LruSet} {j : Nat} {o : List Nat}
    (ht : Touched E set R j o) (hlt : ∀ i < E, (set i).lru + 1 < 2 ^ 64) :
    SetRel E (incrementLru set E) R (j :: o) := by
  have hE : ∀ i ∈ j :: o, i < E := fun i hi => ((ht.mem i).1 hi).1
  have hlru : ∀ i ∈ j :: o, (incrementLru set E i).lru = (set i).lru + 1 :=
    fun i hi => incrementLru_lru (hE i hi) (hlt i (hE i hi))
  refine ⟨ht.nodup, by simpa using ht.mem, by simpa using ht.entries, ?_, ?_, by simpa using ht.clean,
    by simpa using ht.tags⟩
  · rw [List.map_congr_left hlru, List.map_cons, List.sorted_cons]
    refine ⟨fun x hx => ?_, ?_⟩
    · obtain ⟨i, hi, rfl⟩ := List.mem_map.1 hx
      have := ht.pos i hi
      rw [ht.zero]; omega
    · exact List.pairwise_map.2 ((List.pairwise_map.1 ht.sorted).imp fun h => by omega)
  · intro i hi; rw [hlru i hi]; omega

/-- Writing line `j` with a fresh valid line (counter `0`) in front of the other valid lines `o`
gives a touched set. -/
theorem touched_update {E : Nat} {set : Nat → CacheLine} {j : Nat} {o : List Nat} (L : CacheLine)
    (hj : j < E) (hL : L.valid) (hL0 : L.lru = 0) (hnd : (j :: o).Nodup)
    (hmem : ∀ i, i ∈ o ↔ i ≠ j ∧ i < E ∧ (set i).valid)
    (hsorted : (o.map fun i => (set i).lru).Sorted (· < ·)) (hpos : ∀ i ∈ o, 1 ≤ (set i).lru)
    (hclean : ∀ i < E, (set i).valid = false → (set i).dirty = false)
    (htag : L.tag ∉ o.map fun i => (set i).tag) (htags : (o.map fun i => (set i).tag).Nodup) :
    Touched E (Function.update set j L)
      ((L.tag, L.dirty) :: o.map fun i => ((set i).tag, (set i).dirty)) j o := by
  have hne : ∀ i ∈ o, i ≠ j := fun i hi => ((hmem i).1 hi).1
  have hsame : ∀ i ∈ o, Function.update set j L i = set i :=
    fun i hi => Function.update_noteq (hne i hi) _ _
  refine ⟨hnd, fun i => ?_, ?_, by simp [hL0], ?_, ?_, fun i hi hv => ?_, ?_⟩
  · by_cases hij : i = j
    · subst hij; simp [hj, hL]
    · simp [hij, hmem]
  · rw [List.map_cons, Function.update_same]
    exact congrArg _ (List.map_congr_left fun i hi => by rw [hsame i hi]).symm
  · have : (o.map fun i => (Function.update set j L i).lru) = o.map fun i => (set i).lru :=
      List.map_congr_left fun i hi => by rw [hsame i hi]
    rwa [this]
  · intro i hi; rw [hsame i hi]; exact hpos i hi
  · by_cases hij : i = j
    · subst hij; simp [hL] at hv
    · rw [Function.update_noteq hij] at hv ⊢; exact hclean i hi hv
  · have : (o.map fun i => (Function.update set j L i).tag) = o.map fun i => (set i).tag :=
      List.map_congr_left fun i hi => by rw [hsame i hi]
    rw [List.map_cons, Function.update_same, this]
    exact List.nodup_cons.2 ⟨htag, htags⟩

section Step
variable {E : Nat} {set : Nat → CacheLine} {R : LruSet} {ord : List Nat} {tag : Nat}

/-- A hit on line `i` moves its entry to the front. -/
theorem SetRel.hit (op : Char) (hr : SetRel E set R ord) {i : Nat} (hi : i < E)
    (hv : (set i).valid) (ht : (set i).tag = tag) :
    ∃ pre d post o, findTag tag R = some (pre, d, post) ∧
      Touched E (Function.update set i
          { set i with lru := 0, dirty := if isStore op then true else (set i).dirty })
        ((tag, isStore op || d) :: (pre ++ post)) i o := by
  obtain ⟨o₁, o₂, hord⟩ := List.append_of_mem ((hr.mem i).2 ⟨hi, hv⟩)
  have hperm : List.Perm (o₁ ++ i :: o₂) (i :: (o₁ ++ o₂)) := List.perm_middle
  have hnd : (i :: (o₁ ++ o₂)).Nodup := hperm.nodup_iff.1 (hord ▸ hr.nodup)
  have htags : ((i :: (o₁ ++ o₂)).map fun k => (set k).tag).Nodup :=
    (hperm.map _).nodup_iff.1 (hord ▸ hr.tags)
  refine ⟨o₁.map fun k => ((set k).tag, (set k).dirty), (set i).dirty,
    o₂.map fun k => ((set k).tag, (set k).dirty), o₁ ++ o₂, ?_, ?_⟩
  · rw [hr.entries, hord, List.map_append, List.map_cons, ← ht]
    apply findTag_eq
    intro e he
    obtain ⟨k, hk, rfl⟩ := List.mem_map.1 he
    intro hkt
    exact (List.nodup_cons.1 htags).1 (List.mem_map.2 ⟨k, List.mem_append_left _ hk, hkt⟩)
  · have := touched_update (o := o₁ ++ o₂)
      { set i with lru := 0, dirty := if isStore op then true else (set i).dirty } hi hv rfl hnd
      (fun k => ⟨fun hk => ⟨fun h => (List.nodup_cons.1 hnd).1 (h ▸ hk),
          (hr.mem k).1 (hord ▸ hperm.mem_iff.2 (List.mem_cons_of_mem _ hk))⟩,
        fun ⟨hki, hk⟩ => by
          have := hperm.mem_iff.1 (hord ▸ (hr.mem k).2 hk)
          exact (List.mem_cons.1 this).resolve_left hki⟩)
      ((hord ▸ hr.sorted).sublist (((List.Sublist.refl o₁).append
          (List.sublist_cons_self i o₂)).map _))
      (fun k hk => hr.pos k (hord ▸ hperm.mem_iff.2 (List.mem_cons_of_mem _ hk)))
      hr.clean (by simpa [← ht] using (List.nodup_cons.1 htags).1) (List.nodup_cons.1 htags).2
    simpa [ht] using this

/-- A miss with a free line `e` puts the new entry in front. -/
theorem SetRel.fill (op : Char) (hr : SetRel E set R ord) {e : Nat} (he : e < E)
    (hv : (set e).valid = false) (hmiss : tag ∉ ord.map fun i => (set i).tag) :
    R.length < E ∧ Touched E (Function.update set e
      ⟨true, tag, 0, if isStore op then true else (set e).dirty⟩) ((tag, isStore op) :: R) e ord := by
  have hout : e ∉ ord := fun h => by simp [((hr.mem e).1 h).2] at hv
  refine ⟨?_, ?_⟩
  · have hsub : ord.Subperm ((List.range E).erase e) := hr.nodup.subperm fun k hk => by
      have := (hr.mem k).1 hk
      exact (List.mem_erase_of_ne fun h => hout (by rw [← h]; exact hk)).2 (List.mem_range.2 this.1)
    have := hsub.length_le
    rw [List.length_erase_of_mem (List.mem_range.2 he), List.length_range] at this
    rw [hr.entries, List.length_map]; omega
  · have := touched_update (o := ord) ⟨true, tag, 0, if isStore op then true else (set e).dirty⟩
      he rfl rfl (List.nodup_cons.2 ⟨hout, hr.nodup⟩)
      (fun k => ⟨fun hk => ⟨fun h => hout (h ▸ hk), (hr.mem k).1 hk⟩, fun h => (hr.mem k).2 h.2⟩)
      hr.sorted hr.pos hr.clean hmiss hr.tags
    simpa [hr.clean e he hv, ← hr.entries] using this

/-- A miss in a full set evicts the line with the largest counter, the last entry. -/
theorem SetRel.evict (op : Char) (hr : SetRel E set R ord) (hE : 1 ≤ E)
    (hall : ∀ j < E, (set j).valid) (hmiss : tag ∉ ord.map fun i => (set i).tag) :
    E ≤ R.length ∧
      R.getLast? = some ((set (maxLruIndex set E)).tag, (set (maxLruIndex set E)).dirty) ∧
      ∃ o, Touched E (Function.update set (maxLruIndex set E) ⟨true, tag, 0, isStore op⟩)
        ((tag, isStore op) :: R.dropLast) (maxLruIndex set E) o := by
  obtain ⟨hmE, hmax⟩ := maxLruIndex_spec set E hE
  set m := maxLruIndex set E
  have hmem : ∀ k, k ∈ ord ↔ k < E := fun k => (hr.mem k).trans ⟨And.left, fun h => ⟨h, hall k h⟩⟩
  have hne : ord ≠ [] := List.ne_nil_of_mem ((hmem 0).2 hE)
  obtain ⟨o, hord⟩ : ∃ o, ord = o ++ [m] := by
    refine ⟨ord.dropLast, ?_⟩
    have hsplit := (List.dropLast_append_getLast hne).symm
    have hlast : ord.getLast hne = m := by
      have hm := (hmem m).2 hmE
      rw [hsplit, List.mem_append, List.mem_singleton] at hm
      refine (hm.resolve_left fun hm' => ?_).symm
      have hs := hr.sorted
      rw [hsplit, List.map_append, List.Sorted, List.pairwise_append] at hs
      have hlt : (set m).lru < (set (ord.getLast hne)).lru :=
        hs.2.2 _ (List.mem_map_of_mem _ hm') _ (List.mem_singleton_self _)
      have := hmax _ ((hmem _).1 (List.getLast_mem hne))
      omega
    rw [← hlast]; exact hsplit
  subst hord
  have hperm : List.Perm (o ++ [m]) (m :: o) := List.perm_append_singleton m o
  have hnd : (m :: o).Nodup := hperm.nodup_iff.1 hr.nodup
  have htags : ((m :: o).map fun k => (set k).tag).Nodup := (hperm.map _).nodup_iff.1 hr.tags
  refine ⟨?_, by simp [hr.entries], o, ?_⟩
  · have hsub : (List.range E).Subperm (o ++ [m]) :=
      (List.nodup_range E).subperm fun k hk => (hmem k).2 (List.mem_range.1 hk)
    have := hsub.length_le
    rw [List.length_range] at this
    rw [hr.entries, List.length_map]; exact this
  · have := touched_update (o := o) ⟨true, tag, 0, isStore op⟩ hmE rfl rfl hnd
      (fun k => ⟨fun hk => ⟨fun h => (List.nodup_cons.1 hnd).1 (h ▸ hk),
          (hr.mem k).1 (List.mem_append_left _ hk)⟩,
        fun ⟨hkm, hk⟩ => by
          have := (hr.mem k).2 hk
          simpa [hkm] using this⟩)
      (hr.sorted.sublist ((List.sublist_append_left o [m]).map _))
      (fun k hk => hr.pos k (List.mem_append_left _ hk)) hr.clean
      (fun h => hmiss (List.mem_map.2 (by
        obtain ⟨k, hk, hkt⟩ := List.mem_map.1 h; exact ⟨k, List.mem_append_left _ hk, hkt⟩)))
      (List.nodup_cons.1 htags).2
    simpa [hr.entries, List.dropLast_concat] using this

/-- After the `lru++` loop a touched set is related, with every counter at most `t + 1`. -/
theorem Touched.finish {R' : LruSet} {j t : Nat} {o : List Nat} (ht : Touched E set R' j o)
    (hlru : ∀ i < E, (set i).lru ≤ t) (ht64 : t + 1 < 2 ^ 64) :
    (∃ ord', SetRel E (incrementLru set E) R' ord') ∧ ∀ i < E, (incrementLru set E i).lru ≤ t + 1 :=
  ⟨⟨_, ht.bump fun i hi => by have := hlru i hi; omega⟩, fun i hi => by
    have := hlru i hi
    rw [incrementLru_lru hi (by omega)]; omega⟩

theorem update_lru_le {t j : Nat} (L : CacheLine) (hL : L.lru = 0) (hlru : ∀ i < E, (set i).lru ≤ t) :
    ∀ i < E, (Function.update set j L i).lru ≤ t := fun i hi => by
  by_cases hij : i = j
  · subst hij; simp [hL]
  · rw [Function.update_noteq hij]; exact hlru i hi

/-- One access to a related set: the reference statistics, wrapped; a related set; counters at
most `t + 1`. -/
theorem accessSet_sim {b t : Nat} (stats : CsimStats) (op : Char) (hE : 1 ≤ E) (hb : b ≤ 30)
    (hr : SetRel E set R ord) (hlru : ∀ i < E, (set i).lru ≤ t) (ht : t + 1 < 2 ^ 64) :
    (accessSet set stats.wrap E b tag op).2 = (lruAccess R stats E b tag op).2.wrap ∧
    ((∃ ord', SetRel E (accessSet set stats.wrap E b tag op).1 (lruAccess R stats E b tag op).1
        ord') ∧ ∀ i < E, ((accessSet set stats.wrap E b tag op).1 i).lru ≤ t + 1) := by
  by_cases hhit : ∃ i < E, (set i).valid ∧ (set i).tag = tag
  · obtain ⟨i, hi, hv, hit⟩ := hhit
    obtain ⟨j, hscan, hj, hjv, hjt⟩ := scanSet_hit set tag E 0 none i (Nat.zero_le _) (by omega) hv hit
    obtain ⟨pre, d, post, o, hfind, htouch⟩ := hr.hit op (by omega) hjv hjt
    simp only [accessSet, hscan, lruAccess, hfind]
    exact ⟨by simp [CsimStats.wrap, addULong], htouch.finish (update_lru_le _ rfl hlru) ht⟩
  · have hno : ∀ j, 0 ≤ j → j < 0 + E → (set j).valid → (set j).tag ≠ tag :=
      fun j _ hj hv ht => hhit ⟨j, by omega, hv, ht⟩
    have hmiss : tag ∉ ord.map fun i => (set i).tag := fun h => by
      obtain ⟨k, hk, hkt⟩ := List.mem_map.1 h
      exact hhit ⟨k, ((hr.mem k).1 hk).1, ((hr.mem k).1 hk).2, hkt⟩
    have hfind : findTag tag R = none := findTag_eq_none tag R fun e he => by
      rw [hr.entries] at he
      obtain ⟨k, hk, rfl⟩ := List.mem_map.1 he
      exact fun h => hmiss (List.mem_map.2 ⟨k, hk, h⟩)
    obtain ⟨hscan, hsome, hnone⟩ := scanSet_miss set tag E 0 none hno
    cases hempty : (scanSet set tag E 0 none).2 with
    | some e =>
      obtain ⟨he, hev⟩ := (hsome e hempty).resolve_left (by simp)
      obtain ⟨hlen, htouch⟩ := hr.fill op (by omega) hev hmiss
      simp only [accessSet, hscan, hempty, fillLine, lruAccess, hfind, if_neg (by omega : ¬ E ≤ R.length)]
      exact ⟨by simp [CsimStats.wrap, addULong], htouch.finish (update_lru_le _ rfl hlru) ht⟩
    | none =>
      obtain ⟨hlen, hlast, o, htouch⟩ := hr.evict op hE (fun j hj => (hnone hempty).2 j (by omega)
        (by omega)) hmiss
      simp only [accessSet, hscan, hempty, fillLine, lruAccess, hfind, if_pos hlen, hlast,
        Option.map_some', Option.getD_some]
      refine ⟨?_, htouch.finish (update_lru_le _ rfl hlru) ht⟩
      cases (set (maxLruIndex set E)).dirty <;> simp [CsimStats.wrap, addULong, toULong_intShiftOne hb]

/-- The valid dirty lines of a related set are its dirty entries. -/
theorem SetRel.dirty_count (hr : SetRel E set R ord) :
    ((List.range E).filter fun j => (set j).valid && (set j).dirty).length =
      (R.filter (·.2)).length := by
  have hperm : List.Perm ord ((List.range E).filter fun j => (set j).valid) :=
    (List.perm_ext_iff_of_nodup hr.nodup ((List.nodup_range E).filter _)).2 fun k => by
      simp [hr.mem k]
  rw [hr.entries, List.filter_map, List.length_map, (hperm.filter _).length_eq, List.filter_filter]
  congr 2
  funext j
  simp [Bool.and_comm]

end Step

/-! ## Whole runs -/

/-- Every simulated set holds its reference set, with counters at most `t`. -/
def CacheRel (E t : Nat) (c : CacheSim) (sets : Nat → LruSet) : Prop :=
  ∀ x, (∃ ord, SetRel E (c x) (sets x) ord) ∧ ∀ i < E, (c x i).lru ≤ t

theorem cacheRel_init (E : Nat) : CacheRel E 0 createCache fun _ => [] := fun _ =>
  ⟨⟨[], ⟨List.nodup_nil, by simp [createCache], rfl, List.sorted_nil, by simp, by simp [createCache],
    List.nodup_nil⟩⟩, by simp [createCache]⟩

theorem setIndex_eq (a s b : Nat) : (a >>> b) &&& ((1 <<< s) - 1) = (a >>> b) % 2 ^ s := by
  rw [Nat.shiftLeft_eq, Nat.one_mul, Nat.and_pow_two_sub_one_eq_mod]

/-- One access keeps the caches related and reports the reference statistics, wrapped. -/
theorem accessData_sim {s E b t a : Nat} {c : CacheSim} {sets : Nat → LruSet} (stats : CsimStats)
    (op : Char) (hE : 1 ≤ E) (hb : b ≤ 30) (hrel : CacheRel E t c sets) (ht : t + 1 < 2 ^ 64) :
    let r := accessData c a stats.wrap s E b op
    let q := lruAccess (sets ((a >>> b) % 2 ^ s)) stats E b (a >>> (s + b)) op
    r.2 = q.2.wrap ∧ CacheRel E (t + 1) r.1 (Function.update sets ((a >>> b) % 2 ^ s) q.1) := by
  obtain ⟨⟨ord, hr⟩, hlru⟩ := hrel ((a >>> b) % 2 ^ s)
  obtain ⟨hstats, hset, hle⟩ :=
    @accessSet_sim E (c ((a >>> b) % 2 ^ s)) _ ord (a >>> (s + b)) b t stats op hE hb hr hlru ht
  simp only [accessData, setIndex_eq]
  refine ⟨hstats, fun x => ?_⟩
  by_cases hx : x = (a >>> b) % 2 ^ s
  · subst hx; simp only [Function.update_same]; exact ⟨hset, hle⟩
  · simp only [Function.update_noteq hx]
    exact ⟨(hrel x).1, fun i hi => Nat.le_succ_of_le ((hrel x).2 i hi)⟩

/-- Along a trace the caches stay related and report the reference statistics, wrapped. -/
theorem processTraceFile_sim {s E b : Nat} (hE : 1 ≤ E) (hb : b ≤ 30) :
    ∀ (trace : List (Char × Nat)) (t : Nat) (c : CacheSim) (sets : Nat → LruSet) (stats : CsimStats),
      t + trace.length < 2 ^ 64 → CacheRel E t c sets →
      (processTraceFile c stats.wrap s E b trace).2 = (lruRun s E b (sets, stats) trace).2.wrap ∧
      CacheRel E (t + trace.length) (processTraceFile c stats.wrap s E b trace).1
        (lruRun s E b (sets, stats) trace).1 := by
  intro trace
  induction trace with
  | nil => intro t c sets stats _ hrel; exact ⟨rfl, hrel⟩
  | cons x trace ih =>
    intro t c sets stats hlen hrel
    obtain ⟨op, a⟩ := x
    simp only [List.length_cons] at hlen
    obtain ⟨hstats, hrel'⟩ :=
      accessData_sim (s := s) (b := b) (a := a) stats op hE hb hrel (by omega)
    have := ih (t + 1) _ _
      (lruAccess (sets ((a >>> b) % 2 ^ s)) stats E b (a >>> (s + b)) op).2 (by omega) hrel'
    simp only [processTraceFile, lruRun, List.length_cons, hstats]
    rwa [show t + (trace.length + 1) = t + 1 + trace.length by omega]

/-- `csim` reports what a write-back, write-allocate LRU cache with `2 ^ s` sets of `E` lines
and `2 ^ b`-byte blocks counts, mod `2 ^ 64`, for every trace of fewer than `2 ^ 64` accesses. -/
theorem csim_refines_lru (s E b : Nat) (trace : List (Char × Nat)) (hE : 1 ≤ E) (hs : s ≤ 30)
    (hb : b ≤ 30) (hlen : trace.length < 2 ^ 64) :
    csim s E b trace = (lruCache s E b trace).wrap := by
  obtain ⟨hstats, hrel⟩ := processTraceFile_sim (s := s) (b := b) hE hb trace 0 createCache
    (fun _ => []) ⟨0, 0, 0, 0, 0⟩ (by omega) (cacheRel_init E)
  rw [CsimStats.wrap_zero] at hstats hrel
  have hsets : ∀ i, setDirtyBytes ((processTraceFile createCache ⟨0, 0, 0, 0, 0⟩ s E b trace).1 i)
      E b = (((lruRun s E b (fun _ => [], ⟨0, 0, 0, 0, 0⟩) trace).1 i).filter (·.2)).length *
        2 ^ b := fun i => by
    obtain ⟨ord, hr⟩ := (hrel i).1
    rw [setDirtyBytes, hr.dirty_count, toULong_intShiftOne hb]
  simp only [csim, lruCache, hstats, hsets, intShiftOne_toNat hs]
  simp [CsimStats.wrap, addULong]

theorem csim_refines_lru_small :
    1 ≤ 2 ∧ 1 ≤ 30 ∧ 4 ≤ 30 ∧ [('S', 0x10), ('L', 0x20), ('M', 0x10)].length < 2 ^ 64 ∧
      csim 1 2 4 [('S', 0x10), ('L', 0x20), ('M', 0x10)] =
        (lruCache 1 2 4 [('S', 0x10), ('L', 0x20), ('M', 0x10)]).wrap :=
  ⟨by decide, by decide, by decide, by decide,
    csim_refines_lru 1 2 4 _ (by decide) (by decide) (by decide) (by decide)⟩

/-- Accesses `M` to the block of a one-line set that holds it: two hits each. -/
theorem lruRun_modify_hits (b : Nat) : ∀ (n : Nat) (sets : Nat → LruSet) (stats : CsimStats),
    sets 0 = [(0, true)] →
      (lruRun 0 1 b (sets, stats) (List.replicate n ('M', 0))).2 =
        { stats with hits := stats.hits + 2 * n }
  | 0, _, _, _ => rfl
  | n + 1, sets, stats, h => by
    rw [List.replicate_succ, lruRun]
    simp only [Nat.zero_shiftRight, Nat.pow_zero, Nat.mod_one, h, lruAccess, findTag, if_true,
      isStore]
    rw [lruRun_modify_hits b n _ _ (by simp)]
    simp only [CsimStats.mk.injEq, and_true]
    omega

/-- `2 ^ 63 + 1` accesses `M 0` to a cache of one line: the reference counts `2 ^ 64 + 1` hits,
and `csim`'s counter has wrapped to `1`. -/
theorem csim_lru_hits_differ :
    (csim 0 1 0 (List.replicate (2 ^ 63 + 1) ('M', 0))).hits = 1 ∧
      (lruCache 0 1 0 (List.replicate (2 ^ 63 + 1) ('M', 0))).hits = 2 ^ 64 + 1 := by
  have hl : (lruRun 0 1 0 (fun _ => [], ⟨0, 0, 0, 0, 0⟩)
      (List.replicate (2 ^ 63 + 1) ('M', 0))).2.hits = 2 ^ 64 + 1 := by
    rw [List.replicate_succ, lruRun,
      lruRun_modify_hits 0 _ _ _ (by simp [lruAccess, findTag, isStore])]
    simp [lruAccess, findTag]
  have hlen : 0 + (List.replicate (2 ^ 63 + 1) ('M', 0)).length < 2 ^ 64 := by
    rw [List.length_replicate]; norm_num
  obtain ⟨hs, -⟩ := processTraceFile_sim (s := 0) (b := 0) le_rfl (by decide)
    (List.replicate (2 ^ 63 + 1) ('M', 0)) 0 createCache (fun _ => []) ⟨0, 0, 0, 0, 0⟩ hlen
    (cacheRel_init 1)
  rw [CsimStats.wrap_zero] at hs
  rw [csim_hits, hs, CsimStats.wrap_hits, lruCache_hits, hl]
  norm_num

end SystemsLabs.Cache
