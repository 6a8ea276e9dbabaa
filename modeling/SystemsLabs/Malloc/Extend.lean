import SystemsLabs.Malloc.Place

/-!
# Growing the heap: `extend_heap` and `mm_init`

* `Inv.extendHeap_spec`: `extend_heap(size)` either fails, with the heap unchanged but for the
  count of `mem_sbrk` calls, or puts a free block of `round_up(size, 16)` bytes where the
  epilogue was, writes a new epilogue after it (a rewrite of the stretch from the old epilogue to
  the new one, `Shape.retile` with an empty stretch before), and coalesces the block. It returns
  a listed free block of at least `size` bytes; the allocated blocks and their payloads are
  kept.
* `Fresh` is the state before `mm_init` has run: no heap, and memlib's first region 16-byte
  aligned. `mmInit_spec`: `mm_init` leaves a fresh state when its first `mem_sbrk` fails;
  otherwise it builds the empty heap of prologue and epilogue (`emptyHeap_inv`), which
  `extend_heap` grows, and no block is allocated.
-/

namespace SystemsLabs.Malloc

/-- `round_up(size, 16)` below `2 ^ 63`: the least multiple of 16 at least `size`. -/
theorem roundUp_spec {size : Nat} (h : size ≤ 2 ^ 63) :
    roundUp size dsize % 16 = 0 ∧ size ≤ roundUp size dsize ∧ roundUp size dsize < size + 16 := by
  simp only [roundUp, dsize_eq]
  rw [Nat.mod_eq_of_lt (by omega : size + (16 - 1) < 2 ^ 64)]
  omega

theorem memSbrk_of_ok {h : Heap} {n : Nat} (hok : h.sbrkOk h.sbrkCalls = true ∧ h.brk + n ≤ 2 ^ 63) :
    memSbrk h n = (some h.brk, { h with sbrkCalls := h.sbrkCalls + 1, brk := h.brk + n }) :=
  if_pos hok

theorem memSbrk_of_fail {h : Heap} {n : Nat}
    (hok : ¬ (h.sbrkOk h.sbrkCalls = true ∧ h.brk + n ≤ 2 ^ 63)) :
    memSbrk h n = (none, { h with sbrkCalls := h.sbrkCalls + 1 }) :=
  if_neg hok

/-! ## `extend_heap` -/

section Extend
variable {h : Heap} {L : Layout} (hi : Inv h L)
include hi

/-- A failed `mem_sbrk` only counts the call. -/
theorem Inv.sbrk_fail (k : Nat) : Inv { h with sbrkCalls := k } L :=
  ⟨⟨hi.lo, hi.start, hi.brk, hi.tiles, hi.prologue, hi.headers, hi.epilogue, hi.footers,
    ⟨hi.lists.nodup, hi.lists.bound, hi.lists.free, hi.lists.head, hi.lists.next, hi.lists.prev⟩⟩,
    hi.noAdjFree, hi.covered⟩

/-- The growth of `extend_heap` when `mem_sbrk` succeeds: the new free block `⟨epi, n, false⟩`
after the blocks of `L`, before coalescing. -/
theorem Inv.grow {n : Nat} (hn : 16 < n) (hmod : n % 16 = 0) {h1 : Heap} (hm : h1.mem = h.mem)
    (hstart : h1.heapStart = h.heapStart) (hlo : h1.lo = h.lo) (hseg : h1.segList = h.segList)
    (hbrk : h1.brk = h.brk + n) (h63 : h.brk + n ≤ 2 ^ 63) :
    let h3 := writeEpilogue (writeBlock h1 h.epi n (flagsBefore L.blocks h.epi).1
      (flagsBefore L.blocks h.epi).2 false true) (findNext (writeBlock h1 h.epi n
      (flagsBefore L.blocks h.epi).1 (flagsBefore L.blocks h.epi).2 false true) h.epi)
    CoalescePre h3 ⟨L.blocks ++ [⟨h.epi, n, false⟩] ++ [], L.lists⟩ ⟨h.epi, n, false⟩ ∧
      ∀ y, y < h.epi → h3.mem y = h.mem y := by
  intro h3
  have hs := hi.toShape
  have hem := hs.epi_mod
  have hlt := hs.epi_lt
  have hse := hs.start_le_epi
  set h2 := writeBlock h1 h.epi n (flagsBefore L.blocks h.epi).1 (flagsBefore L.blocks h.epi).2
    false true
  have hw2 := fun x (hx : x % 8 = 0) => writeBlock_word h1 h.epi (x := x)
    (flagsBefore L.blocks h.epi).1 (flagsBefore L.blocks h.epi).2 false true (by omega) hmod
    (by omega) (by omega) hx
  have hn2 : findNext h2 h.epi = h.epi + n := by
    rw [findNext, getSize_writeBlock _ _ _ _ _ _ (by omega) hmod (by omega) (by omega)]
  have hw3 : ∀ x, x % 8 = 0 → h3.word x = if x = h.epi + n then pack 0 false false true
      else h2.word x := fun x hx => by
    show (writeEpilogue _ _).word x = _
    rw [writeEpilogue, hn2, Heap.word_store _ _ (by omega) hx,
      Nat.mod_eq_of_lt (pack_lt _ _ _ rfl (by norm_num))]
  have hsys : h3.heapStart = h.heapStart ∧ h3.lo = h.lo ∧ h3.brk = h.brk + n ∧
      h3.segList = h.segList := by
    have := (writeBlock_sameSys h1 h.epi n (flagsBefore L.blocks h.epi).1
      (flagsBefore L.blocks h.epi).2 false true)
    exact ⟨this.heapStart.trans hstart, this.lo.trans hlo, this.brk.trans hbrk,
      by simp [h3, h2, writeEpilogue, hseg]⟩
  have hepi3 : h3.epi = h.epi + n := by
    rw [Heap.epi, hsys.2.2.1]; unfold Heap.epi at hse hem ⊢; omega
  have hnew : Tiles h.epi [⟨h.epi, n, false⟩] (h.epi + n) := ⟨rfl, by show 16 ≤ n; omega, hmod, rfl⟩
  have hsplit : L.blocks = L.blocks ++ [] ++ [] := by simp
  have hfl : flagsBefore (L.blocks ++ [⟨h.epi, n, false⟩] ++ []) (h.epi + n) = (false, false) := by
    rw [flagsBefore_of_mem (hs.tiles.append3 hnew (show Tiles (h.epi + n) [] (h.epi + n) from rfl))
      (x := ⟨h.epi, n, false⟩) (by simp) rfl]
    simp only [Prod.mk.injEq, decide_eq_false_iff_not, and_true]; omega
  obtain ⟨hshape, hmem⟩ := hs.retile hsplit hs.tiles rfl rfl hnew hepi3.symm (by simp)
    hsys.1 hsys.2.1 (by rw [hsys.2.2.1]; exact h63) hsys.2.2.2
    (fun x hx hx' => by
      rw [hw3 x hx, if_neg (by omega), hw2 x hx, if_neg (by omega), if_neg (by omega), Heap.word, hm]
      rfl)
    (fun y hy => by
      rw [List.mem_singleton] at hy; subst hy; dsimp only
      rw [hw3 _ (by omega), if_neg (by omega), hw2 _ (by omega), if_pos rfl, headerOf,
        ← flagsBefore_retile_lo (show Tiles h.epi [] h.epi from rfl) hnew
          (show Tiles h.epi [] h.epi from rfl) le_rfl,
        ← hsplit])
    (fun y hy _ _ => by
      rw [List.mem_singleton] at hy; subst hy
      refine ⟨(flagsBefore L.blocks h.epi).1, (flagsBefore L.blocks h.epi).2, ?_⟩
      dsimp only
      rw [hw3 _ (by omega), if_neg (by omega), hw2 _ (by omega), if_neg (by omega),
        if_pos ⟨rfl, by omega, rfl⟩])
    (by rw [hw3 _ (by omega), if_pos rfl, headerAfter, epilogueOf, hfl])
  obtain ⟨hcov, hadj⟩ := hi.outside hsplit
    (show ∀ x ∈ [Blk.mk h.epi n false], x.alloc = true ∨ x = Blk.mk h.epi n false by simp)
    fun x _ c hx => hx
  refine ⟨{ hshape with
    mem := by simp
    free := rfl
    unlisted := fun c hl => by
      obtain ⟨x, hx, hxa, -⟩ := hs.listed hl
      have := hs.bounds hx; dsimp only at hxa; omega
    covered := hcov
    noAdjFree := hadj }, fun y hy => hmem y (.inl hy)⟩

/-- `extend_heap(size)`, for `16 < size ≤ 2 ^ 63`. -/
theorem Inv.extendHeap_spec {size : Nat} (h16 : 16 < size) (h63 : size ≤ 2 ^ 63) :
    ∃ h' L' r, extendHeap h size = some (h', r) ∧ Inv h' L' ∧
      (∀ x, Allocated L' x ↔ Allocated L x) ∧ Kept L h h' ∧
      (r ≠ 0 → ∃ y c, y.addr = r ∧ y ∈ L'.blocks ∧ r ∈ L'.lists c ∧ size ≤ y.size) := by
  obtain ⟨hmod, hle, -⟩ := roundUp_spec h63
  by_cases hok : h.sbrkOk h.sbrkCalls = true ∧ h.brk + roundUp size dsize ≤ 2 ^ 63
  · set h1 : Heap := { h with sbrkCalls := h.sbrkCalls + 1, brk := h.brk + roundUp size dsize }
      with hh1
    have hpm : getPreMin h1 h.epi = (flagsBefore L.blocks h.epi).1 := by
      rw [getPreMin, show h1.word h.epi = h.word h.epi from rfl, hi.epilogue, epilogueOf,
        preMin_pack _ _ _ rfl]
    have hpa : getPreAlloc h1 h.epi = (flagsBefore L.blocks h.epi).2 := by
      rw [getPreAlloc, show h1.word h.epi = h.word h.epi from rfl, hi.epilogue, epilogueOf,
        preAlloc_pack _ _ _ rfl]
    obtain ⟨hc, hmem⟩ := hi.grow (by omega) hmod (show h1.mem = h.mem from rfl) rfl rfl rfl rfl hok.2
    obtain ⟨h', L', y, hco, hinv, -, hk, hal, hy, -, hsz, c, hyl⟩ := hc.coalesce
    have hcode : extendHeap h size = coalesceBlock (writeEpilogue (writeBlock h1 h.epi
        (roundUp size dsize) (flagsBefore L.blocks h.epi).1 (flagsBefore L.blocks h.epi).2 false
        true) (findNext (writeBlock h1 h.epi (roundUp size dsize) (flagsBefore L.blocks h.epi).1
        (flagsBefore L.blocks h.epi).2 false true) h.epi)) h.epi := by
      rw [← hpm, ← hpa]
      simp only [extendHeap, memSbrk_of_ok hok, payloadToHeader, wsize_eq]
      rfl
    refine ⟨h', L', y.addr, by rw [hcode, hco], hinv, fun x => (hal x).trans ?_,
      fun z hz => (hk z (InUse.mono (fun x hx => ?_) hz)).trans (hmem z ?_), fun _ =>
      ⟨y, c, rfl, hy, hyl, le_trans hle hsz⟩⟩
    · simp only [Allocated, List.append_nil, List.mem_append, List.mem_singleton, or_and_right]
      exact or_iff_left (by rintro ⟨rfl, h⟩; cases h)
    · exact ⟨by simp [hx.1], hx.2⟩
    · obtain ⟨x, hx, -, -, h2⟩ := hz
      have := hi.bounds hx; omega
  · refine ⟨_, L, 0, ?_, hi.sbrk_fail (h.sbrkCalls + 1), fun x => Iff.rfl, fun _ _ => rfl,
      fun h0 => absurd rfl h0⟩
    simp only [extendHeap, memSbrk_of_fail hok]

end Extend

/-! ## `mm_init` -/

/-- The state before `mm_init`: no heap yet (`heap_start` is `NULL`), and memlib's first region,
where the heap will start, 16-byte aligned. -/
def Fresh (h : Heap) : Prop := h.heapStart = 0 ∧ h.brk = h.lo ∧ h.lo % 16 = 0

/-- The layout of the heap of prologue and epilogue only. -/
def emptyLayout : Layout := ⟨[], fun _ => []⟩

/-- The heap `mm_init` builds before it grows it: prologue and epilogue in the first two words of
memlib's region, empty lists. -/
theorem emptyHeap_inv {h : Heap} (hlo : h.lo % 16 = 0) (hstart : h.heapStart = h.lo + 8)
    (hbrk : h.brk = h.lo + 16) (h63 : h.brk ≤ 2 ^ 63) (hseg : ∀ c, h.segList c = 0)
    (hpro : h.word h.lo = pack 0 false true true)
    (hepi : h.word (h.lo + 8) = pack 0 false true true) : Inv h emptyLayout := by
  have he : h.epi = h.lo + 8 := by rw [Heap.epi, hbrk]; rfl
  refine ⟨⟨hlo, hstart, h63, ?_, ?_, by simp [emptyLayout], ?_, by simp [emptyLayout],
    ⟨by simp [emptyLayout], by simp [emptyLayout], by simp [emptyLayout],
      fun c _ => hseg c, by simp [emptyLayout], by simp [emptyLayout]⟩⟩, by simp [emptyLayout],
    by simp [emptyLayout]⟩
  · show h.heapStart = h.epi; rw [he, hstart]
  · rw [hstart, Nat.add_sub_cancel]; exact hpro
  · rw [he, hepi]; rfl

/-- `mm_init()` from a fresh state: the state stays fresh when the first `mem_sbrk` fails;
otherwise the heap satisfies the invariant with no allocated block. It reports success exactly
when `extend_heap` gave a block. -/
theorem mmInit_spec {h : Heap} (hf : Fresh h) :
    ∃ h' ok, mmInit h = some (h', ok) ∧
      (Fresh h' ∧ ok = false ∨ ∃ L', Inv h' L' ∧ ∀ x, ¬ Allocated L' x) := by
  obtain ⟨h00, hbl, hmod⟩ := hf
  by_cases hok : h.sbrkOk h.sbrkCalls = true ∧ h.brk + 2 * wsize ≤ 2 ^ 63
  · set h1 : Heap := { h with sbrkCalls := h.sbrkCalls + 1, brk := h.brk + 2 * wsize }
    set h2 := (h1.store h.brk (pack 0 false true true)).store (h.brk + wsize)
      (pack 0 false true true)
    set h0 : Heap := { h2 with heapStart := h.brk + wsize, segList := fun _ => 0 }
    have h64 : pack 0 false true true < 2 ^ 64 := pack_lt _ _ _ rfl (by norm_num)
    have hi : Inv h0 emptyLayout := emptyHeap_inv hmod (by simp [h0, h2, h1, Heap.store, hbl])
      (by simp [h0, h2, h1, Heap.store, hbl])
      (by simp only [h0, h2, h1, Heap.store]; exact hok.2) (fun _ => rfl)
      (by
        show h2.word h.lo = _
        rw [Heap.word_store _ _ (by simp; omega) (by omega), if_neg (by simp; omega), ← hbl,
          Heap.word_store_self, Nat.mod_eq_of_lt h64])
      (by
        show h2.word (h.lo + 8) = _
        rw [← hbl, show h.brk + 8 = h.brk + wsize from rfl, Heap.word_store_self,
          Nat.mod_eq_of_lt h64])
    obtain ⟨h', L', r, hext, hinv, hal, -⟩ := hi.extendHeap_spec
      (show 16 < chunksize by decide) (show chunksize ≤ 2 ^ 63 by decide)
    refine ⟨h', decide (r ≠ 0), ?_, .inr ⟨L', hinv, fun x hx => by
      simpa [emptyLayout, Allocated] using (hal x).1 hx⟩⟩
    have hcode : mmInit h = (extendHeap h0 chunksize).map fun r => (r.1, decide (r.2 ≠ 0)) := by
      simp only [mmInit, memSbrk_of_ok hok]
    rw [hcode, hext]; rfl
  · exact ⟨{ h with sbrkCalls := h.sbrkCalls + 1 }, false,
      by simp only [mmInit, memSbrk_of_fail hok], .inl ⟨⟨h00, hbl, hmod⟩, rfl⟩⟩

end SystemsLabs.Malloc
