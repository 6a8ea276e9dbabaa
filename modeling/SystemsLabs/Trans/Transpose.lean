import Mathlib.Data.List.Basic
import Mathlib.Algebra.Group.Nat.Basic

/-!
# The transpose kernels of `trans.c`

A transpose function of `trans.c` is passed the `N × M` matrix `A`, the `M × N` matrix `B` and a
scratch array `tmp` of `TMPCOUNT` doubles (`tmpCount` here: the constant comes from
`cachelab.h`, which is not part of the source). Every array reference is checked: one outside
its array makes the model return `none`, so a result `some s'` says that no reference left its
array.

`transpose_32x32` and `transpose_1024x1024` walk `8 × 8` blocks (`forBlocks`) and defer the
diagonal cell of each row of a diagonal block: the first keeps its indices in `ii` and `jj`,
the second parks its value in `tmp[i - ii]`. Each loop is described by `Fills R t s s'`: `s'` is
`s` with the cells `R` of `B` transposed from `A`, `A` unchanged, and `tmp` unchanged from
index `t` on. The loops compose (`Fills.trans`, `foldlM_fills`, `forBlocks_transposes`) into
`Transposes`: `B` is the transpose of `A`.

`trans_basic` and `trans_tmp` are the same row-major loop nest (`rowMajor_transposes`);
`trans_tmp` passes each value through `tmp[2 * (i % 2) + j % 2]` and so needs four entries of
`tmp` (`transTmp_spec`). Their asserts are compiled out (`NDEBUG`), as in the measured runs; the
check they would make, `is_transpose`, compares with C's `!=` on `double`s (`doubleNe`), and so
fails on a correct transpose of a matrix holding a NaN (`trans_assert_iff_no_nan`).
-/

namespace SystemsLabs.Trans

/-- The arrays a transpose function is passed: `A[N][M]`, `B[M][N]` and `tmp[TMPCOUNT]`, as
functions of their indices. The kernels only copy values, so `α` stands for `double`. -/
structure Arrays (α : Type) where
  A : Nat → Nat → α
  B : Nat → Nat → α
  tmp : Nat → α

variable {α : Type}

namespace Arrays

/-- `B[j][i] = v`. -/
def setB (s : Arrays α) (j i : Nat) (v : α) : Arrays α :=
  { s with B := fun j' i' => if j' = j ∧ i' = i then v else s.B j' i' }

/-- `tmp[k] = v`. -/
def setTmp (s : Arrays α) (k : Nat) (v : α) : Arrays α :=
  { s with tmp := fun k' => if k' = k then v else s.tmp k' }

@[simp] theorem setB_A (s : Arrays α) (j i : Nat) (v : α) : (s.setB j i v).A = s.A := rfl
@[simp] theorem setB_tmp (s : Arrays α) (j i : Nat) (v : α) : (s.setB j i v).tmp = s.tmp := rfl
@[simp] theorem setTmp_A (s : Arrays α) (k : Nat) (v : α) : (s.setTmp k v).A = s.A := rfl
@[simp] theorem setTmp_B (s : Arrays α) (k : Nat) (v : α) : (s.setTmp k v).B = s.B := rfl

/-- `A[i][j]`; `none` for a reference outside `A`. -/
def readA (M N : Nat) (s : Arrays α) (i j : Nat) : Option α :=
  if i < N ∧ j < M then some (s.A i j) else none

/-- `B[j][i] = v`; `none` for a reference outside `B`. -/
def writeB (M N : Nat) (s : Arrays α) (j i : Nat) (v : α) : Option (Arrays α) :=
  if j < M ∧ i < N then some (s.setB j i v) else none

/-- `tmp[k]`; `none` for a reference outside `tmp`. -/
def readTmp (tmpCount : Nat) (s : Arrays α) (k : Nat) : Option α :=
  if k < tmpCount then some (s.tmp k) else none

/-- `tmp[k] = v`; `none` for a reference outside `tmp`. -/
def writeTmp (tmpCount : Nat) (s : Arrays α) (k : Nat) (v : α) : Option (Arrays α) :=
  if k < tmpCount then some (s.setTmp k v) else none

end Arrays

/-! ## The kernels -/

/-- `B[j][i] = A[i][j]`, the statement all the kernels are made of. -/
def copyCell (M N : Nat) (s : Arrays α) (i j : Nat) : Option (Arrays α) :=
  (s.readA M N i j).bind (s.writeB M N j i)

/-- `trans_basic`: `B[j][i] = A[i][j]` row by row. `transpose_submit` runs the same loop nest
for the sizes it does not dispatch. -/
def transBasic (M N : Nat) (s : Arrays α) : Option (Arrays α) :=
  (List.range N).foldlM (fun s i => (List.range M).foldlM (fun s j => copyCell M N s i j) s) s

/-- One cell of `trans_tmp`: `A[i][j]` goes through `tmp[2 * di + dj]`, the entry of the
`2 × 2` array for the parities of `i` and `j`. -/
def transTmpCell (tmpCount M N : Nat) (s : Arrays α) (i j : Nat) : Option (Arrays α) := do
  let di := i % 2
  let dj := j % 2
  let a ← s.readA M N i j
  let s ← s.writeTmp tmpCount (2 * di + dj) a
  let v ← s.readTmp tmpCount (2 * di + dj)
  s.writeB M N j i v

/-- `trans_tmp`: the loop nest of `trans_basic`, each value passed through `tmp[0..3]`. -/
def transTmp (tmpCount M N : Nat) (s : Arrays α) : Option (Arrays α) :=
  (List.range N).foldlM
    (fun s i => (List.range M).foldlM (fun s j => transTmpCell tmpCount M N s i j) s) s

/-- The block side of both kernels. -/
def BLOCK_SIZE : Nat := 8

/-- The values `k` takes in `for (k = 0; k < n; k += BLOCK_SIZE)`. -/
def blockStarts (n : Nat) : List Nat :=
  List.range' 0 ((n + BLOCK_SIZE - 1) / BLOCK_SIZE) BLOCK_SIZE

/-- The values `k` takes in `for (k = b; k < b + BLOCK_SIZE; ++k)`. -/
def blockRange (b : Nat) : List Nat := List.range' b BLOCK_SIZE

/-- The two outer loops of both kernels: `blk` on each block, by rows of blocks. -/
def forBlocks {σ : Type} (M N : Nat) (blk : σ → Nat → Nat → Option σ) (x : σ) : Option σ :=
  (blockStarts N).foldlM
    (fun x blockRow => (blockStarts M).foldlM (fun x blockCol => blk x blockRow blockCol) x) x

/-- The body of the `j` loop of `transpose_32x32`, on the arrays and the locals `ii`, `jj`: off
the diagonal `B[j][i] = A[i][j]`, on it `ii = i; jj = j`. -/
def transpose32x32Cell (M N i : Nat) (r : Arrays α × Nat × Nat) (j : Nat) :
    Option (Arrays α × Nat × Nat) :=
  if i ≠ j then (copyCell M N r.1 i j).map fun s => (s, r.2) else some (r.1, i, j)

/-- Row `i` of a block of `transpose_32x32`: the `j` loop, then in a diagonal block the deferred
`B[jj][ii] = A[ii][jj]`. -/
def transpose32x32Row (M N blockRow blockCol : Nat) (r : Arrays α × Nat × Nat) (i : Nat) :
    Option (Arrays α × Nat × Nat) :=
  ((blockRange blockCol).foldlM (transpose32x32Cell M N i) r).bind fun r =>
    if blockRow = blockCol then (copyCell M N r.1 r.2.1 r.2.2).map fun s => (s, r.2) else some r

/-- A block of `transpose_32x32`: its rows. -/
def transpose32x32Block (M N : Nat) (r : Arrays α × Nat × Nat) (blockRow blockCol : Nat) :
    Option (Arrays α × Nat × Nat) :=
  (blockRange blockRow).foldlM (transpose32x32Row M N blockRow blockCol) r

/-- `transpose_32x32`. Its locals `ii` and `jj` are not initialised: they start with the values
given. -/
def transpose32x32 (M N : Nat) (s : Arrays α) (ii jj : Nat) : Option (Arrays α) :=
  (forBlocks M N (transpose32x32Block M N) (s, ii, jj)).map (·.1)

/-- The body of the `j` loop of `transpose_1024x1024` in the block at `(ii, jj)`: off the
diagonal `B[j][i] = A[i][j]`, on it `tmp[i - ii] = A[i][j]`. -/
def transpose1024x1024Cell (tmpCount M N ii i : Nat) (s : Arrays α) (j : Nat) :
    Option (Arrays α) :=
  if i ≠ j then copyCell M N s i j
  else (s.readA M N i j).bind (s.writeTmp tmpCount (i - ii))

/-- Row `i` of the block at `(ii, jj)` of `transpose_1024x1024`: the `j` loop, then in a diagonal
block `B[i][i] = tmp[i - ii]`. -/
def transpose1024x1024Row (tmpCount M N ii jj : Nat) (s : Arrays α) (i : Nat) :
    Option (Arrays α) :=
  ((blockRange jj).foldlM (transpose1024x1024Cell tmpCount M N ii i) s).bind fun s =>
    if ii = jj then (s.readTmp tmpCount (i - ii)).bind (s.writeB M N i i) else some s

/-- A block of `transpose_1024x1024`: its rows. -/
def transpose1024x1024Block (tmpCount M N : Nat) (s : Arrays α) (ii jj : Nat) :
    Option (Arrays α) :=
  (blockRange ii).foldlM (transpose1024x1024Row tmpCount M N ii jj) s

/-- `transpose_1024x1024`. -/
def transpose1024x1024 (tmpCount M N : Nat) (s : Arrays α) : Option (Arrays α) :=
  forBlocks M N (transpose1024x1024Block tmpCount M N) s

/-- `transpose_submit`: the `32 × 32` and `1024 × 1024` kernels at their sizes, the plain loop
nest of `trans_basic` otherwise. `ii` and `jj` are the initial values of `transpose_32x32`'s
locals. -/
def transposeSubmit (tmpCount M N : Nat) (s : Arrays α) (ii jj : Nat) : Option (Arrays α) :=
  if M = 32 ∧ N = 32 then transpose32x32 M N s ii jj
  else if M = 1024 ∧ N = 1024 then transpose1024x1024 tmpCount M N s
  else transBasic M N s

/-! ## Filling `B` -/

/-- `s'` is `s` with the cells `R i j` of `B` (`B[j][i]`) set to `A[i][j]`, the other cells of
`B` and all of `A` as they were, and `tmp` unchanged from index `t` on. -/
structure Fills (R : Nat → Nat → Prop) (t : Nat) (s s' : Arrays α) : Prop where
  A_eq : s'.A = s.A
  fill : ∀ i j, R i j → s'.B j i = s.A i j
  keep : ∀ i j, ¬ R i j → s'.B j i = s.B j i
  tmp_eq : ∀ k, t ≤ k → s'.tmp k = s.tmp k

/-- `B` is the transpose of `A`, and nothing else changed but `tmp` below index `t`. -/
def Transposes (M N t : Nat) (s s' : Arrays α) : Prop := Fills (fun i j => i < N ∧ j < M) t s s'

namespace Fills

variable {R R' : Nat → Nat → Prop} {t : Nat} {s s₁ s₂ : Arrays α}

theorem refl (s : Arrays α) (t : Nat) : Fills (fun _ _ => False) t s s :=
  ⟨rfl, fun _ _ h => h.elim, fun _ _ _ => rfl, fun _ _ => rfl⟩

theorem congr (hR : ∀ i j, R i j ↔ R' i j) (h : Fills R t s s₁) : Fills R' t s s₁ :=
  ⟨h.A_eq, fun i j hr => h.fill i j ((hR i j).2 hr), fun i j hr => h.keep i j (mt (hR i j).1 hr),
    h.tmp_eq⟩

theorem trans (h₁ : Fills R t s s₁) (h₂ : Fills R' t s₁ s₂) :
    Fills (fun i j => R i j ∨ R' i j) t s s₂ where
  A_eq := h₂.A_eq.trans h₁.A_eq
  fill i j hr := by
    by_cases h' : R' i j
    · rw [h₂.fill i j h', h₁.A_eq]
    · rw [h₂.keep i j h', h₁.fill i j (hr.resolve_right h')]
  keep i j hr := by rw [h₂.keep i j fun h => hr (.inr h), h₁.keep i j fun h => hr (.inl h)]
  tmp_eq k hk := (h₂.tmp_eq k hk).trans (h₁.tmp_eq k hk)

theorem mono {t' : Nat} (h : Fills R t s s₁) (ht : t ≤ t') : Fills R t' s s₁ :=
  ⟨h.A_eq, h.fill, h.keep, fun k hk => h.tmp_eq k (le_trans ht hk)⟩

/-- Two fillings of the same cells leave the same `B`. -/
theorem B_eq {t' : Nat} (h₁ : Fills R t s s₁) (h₂ : Fills R t' s s₂) : s₁.B = s₂.B := by
  funext j i
  by_cases hr : R i j
  · rw [h₁.fill i j hr, h₂.fill i j hr]
  · rw [h₁.keep i j hr, h₂.keep i j hr]

end Fills

theorem setB_fills (s : Arrays α) (i j t : Nat) :
    Fills (fun i' j' => i' = i ∧ j' = j) t s (s.setB j i (s.A i j)) where
  A_eq := rfl
  fill i' j' h := by rw [h.1, h.2]; simp [Arrays.setB]
  keep i' j' h := by simp only [Arrays.setB]; rw [if_neg fun h' => h ⟨h'.2, h'.1⟩]
  tmp_eq _ _ := rfl

theorem copyCell_eq {M N : Nat} (s : Arrays α) {i j : Nat} (hi : i < N) (hj : j < M) :
    copyCell M N s i j = some (s.setB j i (s.A i j)) := by
  simp [copyCell, Arrays.readA, Arrays.writeB, hi, hj]

/-- A loop whose body fills the cells `R k` at index `k` fills the cells of all its indices. -/
theorem foldlM_fills {σ : Type} (π : σ → Arrays α) {body : σ → Nat → Option σ}
    {R : Nat → Nat → Nat → Prop} {t : Nat} :
    ∀ (l : List Nat), (∀ k ∈ l, ∀ x, ∃ y, body x k = some y ∧ Fills (R k) t (π x) (π y)) →
      ∀ x, ∃ y, l.foldlM body x = some y ∧ Fills (fun i j => ∃ k ∈ l, R k i j) t (π x) (π y)
  | [], _, x => ⟨x, rfl, (Fills.refl _ t).congr fun _ _ => by simp⟩
  | k :: l, hb, x => by
    obtain ⟨y, hy, hf⟩ := hb k (List.mem_cons_self k l) x
    obtain ⟨z, hz, hf'⟩ := foldlM_fills π l (fun k hk => hb k (List.mem_cons_of_mem _ hk)) y
    exact ⟨z, by simp [hy, hz], (hf.trans hf').congr fun _ _ => by simp⟩

/-- A loop whose body fails at index `k` exactly when `P k` does not hold, whatever the state,
fails exactly when some index of the list breaks `P`. -/
theorem foldlM_eq_none {σ : Type} {body : σ → Nat → Option σ} {P : Nat → Prop}
    (hb : ∀ x k, body x k = none ↔ ¬ P k) :
    ∀ (l : List Nat) (x : σ), l.foldlM body x = none ↔ ∃ k ∈ l, ¬ P k
  | [], x => by simp
  | k :: l, x => by
    rw [List.foldlM_cons]
    cases h : body x k with
    | none => exact ⟨fun _ => ⟨k, List.mem_cons_self k l, (hb x k).1 h⟩, fun _ => rfl⟩
    | some y =>
      have hk : P k := not_not.1 fun hn => by simp [(hb x k).2 hn] at h
      show l.foldlM body y = none ↔ _
      rw [foldlM_eq_none hb l y]
      simp [hk]

/-- `tmp[k] = v` below index `t` fills no cell of `B`. -/
theorem setTmp_fills (s : Arrays α) {k t : Nat} (hk : k < t) (v : α) :
    Fills (fun _ _ => False) t s (s.setTmp k v) :=
  ⟨rfl, fun _ _ h => h.elim, fun _ _ _ => rfl, fun k' hk' => if_neg (by omega)⟩

/-! ## Blocks -/

theorem mem_blockRange {b i : Nat} : i ∈ blockRange b ↔ b ≤ i ∧ i < b + 8 :=
  List.mem_range'_1

theorem mem_blockStarts {n b : Nat} : b ∈ blockStarts n ↔ b % 8 = 0 ∧ b < (n + 7) / 8 * 8 := by
  simp only [blockStarts, List.mem_range', BLOCK_SIZE]
  constructor
  · rintro ⟨k, hk, rfl⟩; omega
  · rintro ⟨h0, hb⟩; exact ⟨b / 8, by omega, by omega⟩

/-- The blocks of a side that is a multiple of 8 cover exactly its indices. -/
theorem exists_blockRange {n : Nat} (hn : n % 8 = 0) {i : Nat} :
    (∃ b ∈ blockStarts n, i ∈ blockRange b) ↔ i < n := by
  simp only [mem_blockStarts, mem_blockRange]
  constructor
  · rintro ⟨b, ⟨h0, hb⟩, hi⟩; omega
  · intro hi; exact ⟨i / 8 * 8, by omega, by omega⟩

theorem lt_of_mem_blockRange {n b i : Nat} (hn : n % 8 = 0) (hb : b ∈ blockStarts n)
    (hi : i ∈ blockRange b) : i < n :=
  (exists_blockRange hn).1 ⟨b, hb, hi⟩

/-- Two blocks of the grid share an index only if they are the same block. -/
theorem mem_blockRange_iff_eq {m n b c i : Nat} (hb : b ∈ blockStarts n) (hc : c ∈ blockStarts m)
    (hi : i ∈ blockRange b) : i ∈ blockRange c ↔ b = c := by
  rw [mem_blockStarts] at hb hc
  rw [mem_blockRange] at hi ⊢
  constructor
  · intro h; omega
  · rintro rfl; exact hi

/-- The two outer loops of a kernel whose blocks each transpose their cells transpose the
matrix. -/
theorem forBlocks_transposes {σ : Type} (π : σ → Arrays α) {blk : σ → Nat → Nat → Option σ}
    {M N t : Nat} (hM : M % 8 = 0) (hN : N % 8 = 0)
    (hb : ∀ br ∈ blockStarts N, ∀ bc ∈ blockStarts M, ∀ x, ∃ y, blk x br bc = some y ∧
      Fills (fun i j => i ∈ blockRange br ∧ j ∈ blockRange bc) t (π x) (π y)) (x : σ) :
    ∃ y, forBlocks M N blk x = some y ∧ Transposes M N t (π x) (π y) := by
  obtain ⟨y, hy, hf⟩ := foldlM_fills π (blockStarts N)
    (R := fun br i j => i ∈ blockRange br ∧ j < M) (fun br hbr x => by
      obtain ⟨y, hy, hf⟩ := foldlM_fills π (blockStarts M) (hb br hbr) x
      exact ⟨y, hy, hf.congr fun i j => by
        show _ ↔ _ ∧ j < M
        rw [← exists_blockRange hM]; exact ⟨fun ⟨c, hc, hi, hj⟩ => ⟨hi, c, hc, hj⟩,
          fun ⟨hi, c, hc, hj⟩ => ⟨c, hc, hi, hj⟩⟩⟩) x
  exact ⟨y, hy, hf.congr fun i j => by
    rw [← exists_blockRange hN]; exact ⟨fun ⟨b, hb, hi, hj⟩ => ⟨⟨b, hb, hi⟩, hj⟩,
      fun ⟨⟨b, hb, hi⟩, hj⟩ => ⟨b, hb, hi, hj⟩⟩⟩

/-! ## `trans_basic` and `trans_tmp` -/

/-- A row-major loop nest whose cell `(i, j)` fills `B[j][i]` transposes. -/
theorem rowMajor_transposes {M N t : Nat} {cell : Arrays α → Nat → Nat → Option (Arrays α)}
    (hcell : ∀ s i j, i < N → j < M →
      ∃ s', cell s i j = some s' ∧ Fills (fun i' j' => i' = i ∧ j' = j) t s s')
    (s : Arrays α) :
    ∃ s', (List.range N).foldlM (fun s i => (List.range M).foldlM (fun s j => cell s i j) s) s =
      some s' ∧ Transposes M N t s s' := by
  obtain ⟨s', hs, hf⟩ := foldlM_fills id (List.range N) (R := fun i' i j => i = i' ∧ j < M)
    (fun i hi s => by
      obtain ⟨s', hs, hf⟩ := foldlM_fills id (List.range M) (R := fun j i' j' => i' = i ∧ j' = j)
        (fun j hj s => hcell s i j (List.mem_range.1 hi) (List.mem_range.1 hj)) s
      exact ⟨s', hs, hf.congr fun i' j' => ⟨fun ⟨k, hk, h1, h2⟩ => ⟨h1, h2 ▸ List.mem_range.1 hk⟩,
        fun ⟨h1, h2⟩ => ⟨j', List.mem_range.2 h2, h1, rfl⟩⟩⟩) s
  exact ⟨s', hs, hf.congr fun i j => ⟨fun ⟨k, hk, h1, h2⟩ => ⟨h1 ▸ List.mem_range.1 hk, h2⟩,
    fun ⟨h1, h2⟩ => ⟨i, List.mem_range.2 h1, rfl, h2⟩⟩⟩

theorem transBasic_transposes (M N : Nat) (s : Arrays α) :
    ∃ s', transBasic M N s = some s' ∧ Transposes M N 0 s s' :=
  rowMajor_transposes (fun s i j hi hj => ⟨_, copyCell_eq s hi hj, setB_fills s i j 0⟩) s

theorem transTmpCell_eq_none {tmpCount M N : Nat} (s : Arrays α) (i j : Nat) :
    transTmpCell tmpCount M N s i j = none ↔
      ¬ (i < N ∧ j < M ∧ 2 * (i % 2) + j % 2 < tmpCount) := by
  by_cases h : i < N ∧ j < M
  · by_cases hk : 2 * (i % 2) + j % 2 < tmpCount
    · simp [transTmpCell, Arrays.readA, Arrays.writeTmp, Arrays.readTmp, Arrays.writeB, h, hk]
    · simp [transTmpCell, Arrays.readA, Arrays.writeTmp, h, hk]
  · simp only [transTmpCell, Arrays.readA, if_neg h]
    exact ⟨fun _ h' => h ⟨h'.1, h'.2.1⟩, fun _ => rfl⟩

theorem transTmpCell_fills {tmpCount M N : Nat} (s : Arrays α) {i j : Nat} (hi : i < N)
    (hj : j < M) (hk : 2 * (i % 2) + j % 2 < tmpCount) :
    ∃ s', transTmpCell tmpCount M N s i j = some s' ∧
      Fills (fun i' j' => i' = i ∧ j' = j) 4 s s' := by
  refine ⟨_, ?_, ((setTmp_fills s (show 2 * (i % 2) + j % 2 < 4 by omega) (s.A i j)).trans
    (setB_fills (s.setTmp (2 * (i % 2) + j % 2) (s.A i j)) i j 4)).congr fun _ _ => by simp⟩
  simp [transTmpCell, Arrays.readA, Arrays.writeTmp, Arrays.readTmp, Arrays.writeB, hi, hj,
    hk, Arrays.setTmp]

theorem transTmp_eq_none_iff {tmpCount M N : Nat} (s : Arrays α) :
    transTmp tmpCount M N s = none ↔ ∃ i < N, ∃ j < M, tmpCount ≤ 2 * (i % 2) + j % 2 := by
  rw [transTmp, foldlM_eq_none (P := fun i => ∀ j ∈ List.range M,
    i < N ∧ j < M ∧ 2 * (i % 2) + j % 2 < tmpCount)]
  · simp only [List.mem_range]
    constructor
    · rintro ⟨i, hi, hn⟩
      obtain ⟨j, hj⟩ := not_forall.1 hn
      obtain ⟨hj, hq⟩ := Classical.not_imp.1 hj
      exact ⟨i, hi, j, hj, by omega⟩
    · rintro ⟨i, hi, j, hj, h⟩
      exact ⟨i, hi, fun hall => by have := hall j hj; omega⟩
  · intro x i
    rw [foldlM_eq_none fun x j => transTmpCell_eq_none x i j]
    simp

theorem transposes_of_transTmp {tmpCount M N : Nat} {s s' : Arrays α}
    (hs : transTmp tmpCount M N s = some s') : Transposes M N 4 s s' := by
  have hk : ∀ i < N, ∀ j < M, 2 * (i % 2) + j % 2 < tmpCount := fun i hi j hj =>
    Nat.lt_of_not_le fun h => by rw [(transTmp_eq_none_iff s).2 ⟨i, hi, j, hj, h⟩] at hs; cases hs
  obtain ⟨s'', hs'', hf⟩ :=
    rowMajor_transposes (fun s i j hi hj => transTmpCell_fills s hi hj (hk i hi j hj)) s
  rw [transTmp, hs''] at hs
  exact Option.some_injective _ hs ▸ hf

/-- `trans_tmp` makes an out-of-bounds reference to `tmp` exactly when the matrix has a cell
whose `tmp` index is not below `TMPCOUNT` (a `tmp` of fewer than four entries and a matrix of two
rows and two columns is enough); when it runs to the end, it has transposed `A` into `B`,
writing `tmp` only in `tmp[0..3]`. -/
theorem transTmp_spec (tmpCount M N : Nat) (s : Arrays α) :
    (transTmp tmpCount M N s = none ↔ ∃ i < N, ∃ j < M, tmpCount ≤ 2 * (i % 2) + j % 2) ∧
      ∀ s', transTmp tmpCount M N s = some s' → Transposes M N 4 s s' :=
  ⟨transTmp_eq_none_iff s, fun _ => transposes_of_transTmp⟩

/-! ## `is_transpose` -/

/-- A `double` is a NaN: its exponent field, bits 52 to 62, is all ones and its fraction is not
zero. -/
def doubleIsNaN (x : BitVec 64) : Bool :=
  x.toNat / 2 ^ 52 % 2 ^ 11 == 2047 && x.toNat % 2 ^ 52 != 0

/-- C's `x != y` on `double`s (IEEE 754): true when either is a NaN; otherwise false exactly for
the same bits or for the two zeros, the one value with two encodings. -/
def doubleNe (x y : BitVec 64) : Bool :=
  doubleIsNaN x || doubleIsNaN y || !(x == y || (x.toNat % 2 ^ 63 == 0 && y.toNat % 2 ^ 63 == 0))

theorem doubleNe_self (x : BitVec 64) : doubleNe x x = doubleIsNaN x := by
  unfold doubleNe; cases doubleIsNaN x <;> simp

example : doubleNe 0x7FF8000000000000 0x7FF8000000000000 = true ∧
    doubleNe 0 0x8000000000000000 = false := by decide

/-- `is_transpose`: `false` at the first cell with `A[i][j] != B[j][i]`, `true` when there is
none; `ne` is `!=` on the element type. The message it prints is not modelled. -/
def isTranspose (ne : α → α → Bool) (M N : Nat) (s : Arrays α) : Bool :=
  (List.range N).all fun i => (List.range M).all fun j => !ne (s.A i j) (s.B j i)

theorem isTranspose_eq_true {ne : α → α → Bool} {M N : Nat} {s : Arrays α} :
    isTranspose ne M N s = true ↔ ∀ i < N, ∀ j < M, ne (s.A i j) (s.B j i) = false := by
  simp [isTranspose]

/-- On arrays whose `B` is the transpose of `A`, `is_transpose` tests each entry of `A` against
itself. -/
theorem isTranspose_of_transposes (ne : α → α → Bool) {M N t : Nat} {s s' : Arrays α}
    (h : Transposes M N t s s') :
    isTranspose ne M N s' = true ↔ ∀ i < N, ∀ j < M, ne (s.A i j) (s.A i j) = false := by
  rw [isTranspose_eq_true, h.A_eq]
  exact forall₂_congr fun i hi => forall₂_congr fun j hj => by rw [h.fill i j ⟨hi, hj⟩]

/-- The check in the asserts of `trans_basic` and `trans_tmp`, on `double`s: after either kernel,
`is_transpose` fails exactly when `A` holds a NaN, which is unequal to itself, although `B` is
then the transpose of `A`. -/
theorem trans_assert_iff_no_nan (tmpCount M N : Nat) (s : Arrays (BitVec 64)) :
    (∃ s', transBasic M N s = some s' ∧
      (isTranspose doubleNe M N s' = true ↔ ∀ i < N, ∀ j < M, doubleIsNaN (s.A i j) = false)) ∧
    ∀ s', transTmp tmpCount M N s = some s' →
      (isTranspose doubleNe M N s' = true ↔ ∀ i < N, ∀ j < M, doubleIsNaN (s.A i j) = false) := by
  obtain ⟨s₀, h₀, f₀⟩ := transBasic_transposes M N s
  refine ⟨⟨s₀, h₀, ?_⟩, fun s' hs => ?_⟩
  · simpa only [doubleNe_self] using isTranspose_of_transposes doubleNe f₀
  · simpa only [doubleNe_self] using isTranspose_of_transposes doubleNe
      (transposes_of_transTmp hs)
/-! ## The cells of one row -/

/-- Row `i`'s cells off the diagonal at the columns of `l` are those at the columns of `i :: l`. -/
theorem offDiag_cons_self {i i' j : Nat} {l : List Nat} :
    (i' = i ∧ j ∈ l ∧ j ≠ i) ↔ (i' = i ∧ j ∈ i :: l ∧ j ≠ i) := by
  rw [List.mem_cons]
  exact ⟨fun ⟨h1, h, hne⟩ => ⟨h1, .inr h, hne⟩, fun ⟨h1, h, hne⟩ => ⟨h1, h.resolve_left hne, hne⟩⟩

/-- Row `i`'s cell at column `k ≠ i`, and its cells off the diagonal at the columns of `l`, are
those at the columns of `k :: l`. -/
theorem offDiag_cons_ne {i i' j k : Nat} {l : List Nat} (hik : i ≠ k) :
    ((i' = i ∧ j = k) ∨ (i' = i ∧ j ∈ l ∧ j ≠ i)) ↔ (i' = i ∧ j ∈ k :: l ∧ j ≠ i) := by
  rw [List.mem_cons]
  constructor
  · rintro (⟨h1, rfl⟩ | ⟨h1, h, hne⟩)
    · exact ⟨h1, .inl rfl, Ne.symm hik⟩
    · exact ⟨h1, .inr h, hne⟩
  · rintro ⟨h1, rfl | h, hne⟩
    · exact .inl ⟨h1, rfl⟩
    · exact .inr ⟨h1, h, hne⟩

/-- A row of a diagonal block: the cells off the diagonal, then the diagonal cell. -/
theorem row_diag {i i' j : Nat} {B : List Nat} (hi : i ∈ B) :
    ((i' = i ∧ j ∈ B ∧ j ≠ i) ∨ (i' = i ∧ j = i)) ↔ (i' = i ∧ j ∈ B) := by
  constructor
  · rintro (⟨h1, h, -⟩ | ⟨h1, rfl⟩)
    · exact ⟨h1, h⟩
    · exact ⟨h1, hi⟩
  · rintro ⟨h1, h⟩
    by_cases hj : j = i
    · exact .inr ⟨h1, hj⟩
    · exact .inl ⟨h1, h, hj⟩

/-- A row of a block off the diagonal has no diagonal cell. -/
theorem row_off {i i' j : Nat} {B : List Nat} (hi : i ∉ B) :
    (i' = i ∧ j ∈ B ∧ j ≠ i) ↔ (i' = i ∧ j ∈ B) :=
  ⟨fun h => ⟨h.1, h.2.1⟩, fun ⟨h1, h⟩ => ⟨h1, h, fun hj => hi (hj ▸ h)⟩⟩

/-! ## `transpose_32x32` -/

section Kernel32
variable {M N : Nat}

/-- The `j` loop of row `i` transposes the cells off the diagonal, and leaves `ii = jj = i` if it
met the diagonal. -/
theorem transpose32x32Cells {i : Nat} (hi : i < N) :
    ∀ (l : List Nat), (∀ j ∈ l, j < M) → ∀ r : Arrays α × Nat × Nat,
      ∃ r', l.foldlM (transpose32x32Cell M N i) r = some r' ∧
        Fills (fun i' j => i' = i ∧ j ∈ l ∧ j ≠ i) 0 r.1 r'.1 ∧
        r'.2 = if i ∈ l then (i, i) else r.2
  | [], _, r => ⟨r, rfl, (Fills.refl _ 0).congr fun _ _ => by simp, by simp⟩
  | j :: l, hl, r => by
    have hl' : ∀ j ∈ l, j < M := fun j hj => hl j (List.mem_cons_of_mem _ hj)
    by_cases hij : i = j
    · subst hij
      obtain ⟨r', hr', hf, h2⟩ := transpose32x32Cells hi l hl' (r.1, i, i)
      refine ⟨r', by simpa [transpose32x32Cell] using hr', hf.congr fun _ _ => offDiag_cons_self,
        by rw [h2]; simp⟩
    · obtain ⟨r', hr', hf, h2⟩ := transpose32x32Cells hi l hl' (r.1.setB j i (r.1.A i j), r.2)
      refine ⟨r', ?_, ((setB_fills r.1 i j 0).trans hf).congr fun _ _ => offDiag_cons_ne hij,
        by rw [h2]; simp [hij]⟩
      simpa [transpose32x32Cell, hij, copyCell_eq r.1 hi (hl j (List.mem_cons_self j l))]
        using hr'

theorem transpose32x32Row_fills (hM : M % 8 = 0) (hN : N % 8 = 0) {br bc i : Nat}
    (hbr : br ∈ blockStarts N) (hbc : bc ∈ blockStarts M) (hi : i ∈ blockRange br)
    (r : Arrays α × Nat × Nat) :
    ∃ r', transpose32x32Row M N br bc r i = some r' ∧
      Fills (fun i' j => i' = i ∧ j ∈ blockRange bc) 0 r.1 r'.1 := by
  have hiN := lt_of_mem_blockRange hN hbr hi
  obtain ⟨r', hr', hf, h2⟩ := transpose32x32Cells (M := M) hiN (blockRange bc)
    (fun j hj => lt_of_mem_blockRange hM hbc hj) r
  by_cases hd : br = bc
  · subst hd
    have hiM := lt_of_mem_blockRange hM hbc hi
    rw [if_pos hi] at h2
    exact ⟨(r'.1.setB i i (r'.1.A i i), r'.2), by simp [transpose32x32Row, hr', h2, copyCell_eq _ hiN hiM],
      (hf.trans (setB_fills r'.1 i i 0)).congr fun _ _ => row_diag hi⟩
  · have hni : i ∉ blockRange bc := mt (mem_blockRange_iff_eq hbr hbc hi).1 hd
    exact ⟨r', by simp [transpose32x32Row, hr', hd], hf.congr fun _ _ => row_off hni⟩

theorem transpose32x32_transposes (hM : M % 8 = 0) (hN : N % 8 = 0) (s : Arrays α)
    (ii jj : Nat) : ∃ s', transpose32x32 M N s ii jj = some s' ∧ Transposes M N 0 s s' := by
  obtain ⟨y, hy, hf⟩ := forBlocks_transposes Prod.fst hM hN (fun br hbr bc hbc x => by
    obtain ⟨y, hy, hf⟩ := foldlM_fills Prod.fst (blockRange br)
      (fun i hi r => transpose32x32Row_fills hM hN hbr hbc hi r) x
    exact ⟨y, show transpose32x32Block M N x br bc = some y from hy,
      hf.congr fun i j => ⟨fun ⟨_, h, rfl, hj⟩ => ⟨h, hj⟩, fun ⟨h, hj⟩ => ⟨i, h, rfl, hj⟩⟩⟩)
    (s, ii, jj)
  exact ⟨y.1, by simp [transpose32x32, hy], hf⟩

end Kernel32

/-! ## `transpose_1024x1024` -/

section Kernel1024
variable {tmpCount M N : Nat}

/-- The `j` loop of row `i` of the block at `(ii, jj)` transposes the cells off the diagonal,
and puts the diagonal value in `tmp[i - ii]` if it met the diagonal. -/
theorem transpose1024x1024Cells (ht : 8 ≤ tmpCount) {ii i : Nat} (hi : i < N) (hii : ii ≤ i)
    (hi8 : i < ii + 8) :
    ∀ (l : List Nat), (∀ j ∈ l, j < M) → ∀ s : Arrays α,
      ∃ s', l.foldlM (transpose1024x1024Cell tmpCount M N ii i) s = some s' ∧
        Fills (fun i' j => i' = i ∧ j ∈ l ∧ j ≠ i) 8 s s' ∧
        s'.tmp (i - ii) = if i ∈ l then s.A i i else s.tmp (i - ii)
  | [], _, s => ⟨s, rfl, (Fills.refl _ 8).congr fun _ _ => by simp, by simp⟩
  | j :: l, hl, s => by
    have hl' : ∀ j ∈ l, j < M := fun j hj => hl j (List.mem_cons_of_mem _ hj)
    have hj := hl j (List.mem_cons_self j l)
    by_cases hij : i = j
    · subst hij
      obtain ⟨s', hs', hf, h2⟩ := transpose1024x1024Cells ht hi hii hi8 l hl'
        (s.setTmp (i - ii) (s.A i i))
      have hf0 : Fills (fun _ _ => False) 8 s (s.setTmp (i - ii) (s.A i i)) :=
        ⟨rfl, fun _ _ h => h.elim, fun _ _ _ => rfl, fun k hk => by
          simp only [Arrays.setTmp]; rw [if_neg (by omega)]⟩
      refine ⟨s', ?_, (hf0.trans hf).congr fun _ _ => (or_iff_right not_false).trans
        offDiag_cons_self, ?_⟩
      · simpa [transpose1024x1024Cell, Arrays.readA, Arrays.writeTmp, hi, hj,
          show i - ii < tmpCount by omega] using hs'
      · rw [h2, if_pos (List.mem_cons_self i l)]; split_ifs <;> simp [Arrays.setTmp]
    · obtain ⟨s', hs', hf, h2⟩ := transpose1024x1024Cells ht hi hii hi8 l hl'
        (s.setB j i (s.A i j))
      exact ⟨s', by simpa [transpose1024x1024Cell, hij, copyCell_eq s hi hj] using hs',
        ((setB_fills s i j 8).trans hf).congr fun _ _ => offDiag_cons_ne hij, by rw [h2]; simp [hij]⟩

theorem transpose1024x1024Row_fills (ht : 8 ≤ tmpCount) (hM : M % 8 = 0) (hN : N % 8 = 0)
    {ii jj i : Nat} (hii : ii ∈ blockStarts N) (hjj : jj ∈ blockStarts M)
    (hi : i ∈ blockRange ii) (s : Arrays α) :
    ∃ s', transpose1024x1024Row tmpCount M N ii jj s i = some s' ∧
      Fills (fun i' j => i' = i ∧ j ∈ blockRange jj) 8 s s' := by
  have hiN := lt_of_mem_blockRange hN hii hi
  have hib := mem_blockRange.1 hi
  obtain ⟨s', hs', hf, h2⟩ := transpose1024x1024Cells ht hiN hib.1 hib.2 (blockRange jj)
    (fun j hj => lt_of_mem_blockRange hM hjj hj) s
  by_cases hd : ii = jj
  · subst hd
    have hiM := lt_of_mem_blockRange hM hjj hi
    rw [if_pos hi] at h2
    have hs'A : s.A i i = s'.A i i := by rw [hf.A_eq]
    refine ⟨s'.setB i i (s'.A i i), ?_, (hf.trans (setB_fills s' i i 8)).congr fun _ _ =>
      row_diag hi⟩
    simp [transpose1024x1024Row, hs', Arrays.readTmp, Arrays.writeB, h2, hiN, hiM, hs'A,
      show i - ii < tmpCount by omega]
  · have hni : i ∉ blockRange jj := mt (mem_blockRange_iff_eq hii hjj hi).1 hd
    exact ⟨s', by simp [transpose1024x1024Row, hs', hd], hf.congr fun _ _ => row_off hni⟩

theorem transpose1024x1024_transposes (ht : 8 ≤ tmpCount) (hM : M % 8 = 0) (hN : N % 8 = 0)
    (s : Arrays α) :
    ∃ s', transpose1024x1024 tmpCount M N s = some s' ∧ Transposes M N 8 s s' :=
  forBlocks_transposes id hM hN (fun ii hii jj hjj s => by
    obtain ⟨y, hy, hf⟩ := foldlM_fills id (blockRange ii)
      (fun i hi s => transpose1024x1024Row_fills ht hM hN hii hjj hi s) s
    exact ⟨y, hy, hf.congr fun i j => ⟨fun ⟨_, h, rfl, hj⟩ => ⟨h, hj⟩,
      fun ⟨h, hj⟩ => ⟨i, h, rfl, hj⟩⟩⟩) s

end Kernel1024

/-! ## `transpose_submit` -/

/-- Both blocked kernels transpose every matrix whose sides are multiples of 8, given a `tmp`
of at least 8 entries, with every reference in bounds, `A` only read, `tmp` written only in
`tmp[0..7]` (not at all by `transpose_32x32`), and the `B` of `trans_basic`; `transpose_submit`
transposes every matrix. -/
theorem blocked_kernels_transpose {tmpCount : Nat} (ht : 8 ≤ tmpCount) (s : Arrays α)
    (ii jj : Nat) :
    (∀ M N, M % 8 = 0 → N % 8 = 0 →
      ∃ s₀ s₁ s₂, transBasic M N s = some s₀ ∧ transpose32x32 M N s ii jj = some s₁ ∧
        transpose1024x1024 tmpCount M N s = some s₂ ∧ Transposes M N 0 s s₀ ∧
        Transposes M N 0 s s₁ ∧ Transposes M N 8 s s₂ ∧ s₁.B = s₀.B ∧ s₂.B = s₀.B) ∧
    ∀ M N, ∃ s', transposeSubmit tmpCount M N s ii jj = some s' ∧ Transposes M N 8 s s' := by
  refine ⟨fun M N hM hN => ?_, fun M N => ?_⟩
  · obtain ⟨s₀, h₀, f₀⟩ := transBasic_transposes M N s
    obtain ⟨s₁, h₁, f₁⟩ := transpose32x32_transposes hM hN s ii jj
    obtain ⟨s₂, h₂, f₂⟩ := transpose1024x1024_transposes ht hM hN s
    exact ⟨s₀, s₁, s₂, h₀, h₁, h₂, f₀, f₁, f₂, f₁.B_eq f₀, f₂.B_eq f₀⟩
  · unfold transposeSubmit
    split_ifs with h32 h1024
    · obtain ⟨s', hs', hf⟩ := transpose32x32_transposes (α := α) (M := M) (N := N)
        (by omega) (by omega) s ii jj
      exact ⟨s', hs', hf.mono (Nat.zero_le 8)⟩
    · exact transpose1024x1024_transposes ht (by omega) (by omega) s
    · obtain ⟨s', hs', hf⟩ := transBasic_transposes M N s
      exact ⟨s', hs', hf.mono (Nat.zero_le 8)⟩

/-- The arrays of all zeros. -/
def zeroArrays : Arrays Nat := ⟨fun _ _ => 0, fun _ _ => 0, fun _ => 0⟩

theorem blocked_kernels_transpose_tmp8 :
    8 ≤ 8 ∧ ∃ s', transposeSubmit 8 32 32 zeroArrays 0 0 = some s' ∧
      Transposes 32 32 8 zeroArrays s' :=
  ⟨le_refl 8, (blocked_kernels_transpose (le_refl 8) zeroArrays 0 0).2 32 32⟩

end SystemsLabs.Trans
