import SystemsLabs.Malloc.Coalesce

/-!
# `free` and `split_block`

The two functions that change one block in place and then coalesce:

* `Inv.free_spec`: `free(p)` of an allocated block turns it into a free block, writing its
  header, its footer and the next header (`Shape.writeFree`), then coalesces it. The invariant
  holds afterwards, the allocated blocks are those before but the freed one, and their payloads
  are kept.
* `Inv.splitBlock_spec`: `split_block(b, asize)` of a listed block of at least `asize` bytes
  unlinks it, and allocates either all of it or its first `asize` bytes; in the second case the
  rest becomes a free block that is coalesced. The invariant holds afterwards, and the allocated
  blocks are those before and the new one, which has at least `asize` bytes.

Both rewrite one stretch of the heap (`Shape.retile`), and both build the precondition of
`coalesce_block` the same way: the blocks outside the stretch are the blocks of the layout
before, and keep its two list-and-neighbour parts (`Inv.outside`). `CoalescePre.coalesce` is
what the callers of `coalesce_block` use of `coalesceBlock_spec`.
-/

namespace SystemsLabs.Malloc

/-- `x` is an allocated block of `L`. -/
def Allocated (L : Layout) (x : Blk) : Prop := x ∈ L.blocks ∧ x.alloc = true

theorem InUse.mono {L L' : Layout} (hal : ∀ x, Allocated L x → Allocated L' x) {y : Nat}
    (hy : InUse L y) : InUse L' y := by
  obtain ⟨x, hx, halloc, h1, h2⟩ := hy
  exact ⟨x, (hal x ⟨hx, halloc⟩).1, halloc, h1, h2⟩

theorem mem_of_mem_replace {pre post : List Blk} {m b x : Blk} (hx : x ∈ pre ++ m :: post)
    (hxm : x ≠ m) : x ∈ pre ++ b :: post := by
  simp only [List.mem_append, List.mem_cons] at hx ⊢
  rcases hx with hx | hx | hx
  · exact .inl hx
  · exact absurd hx hxm
  · exact .inr (.inr hx)

theorem allocated_replace {pre mid' post : List Blk} {b y : Blk} (hb : b.alloc = false)
    (hmid' : ∀ x ∈ mid', x.alloc = true → x = y) (hy : y ∈ mid') (hya : y.alloc = true)
    (lists lists' : Nat → List Nat) (x : Blk) :
    Allocated ⟨pre ++ mid' ++ post, lists'⟩ x ↔ Allocated ⟨pre ++ [b] ++ post, lists⟩ x ∨ x = y := by
  simp only [Allocated, List.mem_append, List.mem_singleton]
  constructor
  · rintro ⟨(hx | hx) | hx, hxa⟩
    · exact .inl ⟨.inl (.inl hx), hxa⟩
    · exact .inr (hmid' x hx hxa)
    · exact .inl ⟨.inr hx, hxa⟩
  · rintro (⟨(hx | rfl) | hx, hxa⟩ | rfl)
    · exact ⟨.inl (.inl hx), hxa⟩
    · rw [hb] at hxa; cases hxa
    · exact ⟨.inr hx, hxa⟩
    · exact ⟨.inl (.inr hy), hya⟩

namespace Shape
variable {h : Heap} {L : Layout} (hs : Shape h L)
include hs

theorem split_at {b : Blk} (hb : b ∈ L.blocks) : ∃ pre post, L.blocks = pre ++ b :: post ∧
    Tiles h.heapStart pre b.addr ∧ Tiles (b.addr + b.size) post h.epi := by
  obtain ⟨pre, post, hsplit⟩ := List.append_of_mem hb
  have := Tiles.split (hsplit ▸ hs.tiles : Tiles h.heapStart (pre ++ b :: post) h.epi)
  exact ⟨pre, post, hsplit, this.1, this.2.1⟩

theorem ne_of_split {pre post : List Blk} {b x : Blk} (hsplit : L.blocks = pre ++ b :: post)
    (hx : x ∈ pre ∨ x ∈ post) : x ≠ b := by
  rintro rfl
  have hd := hs.tiles.pairwise
  rw [hsplit, List.pairwise_append, List.pairwise_cons] at hd
  have := (hs.bounds (hsplit ▸ List.mem_append_right _ (List.mem_cons_self _ _))).2.2.1
  rcases hx with hx | hx
  · have := hd.2.2 x hx x (List.mem_cons_self _ _); omega
  · have := hd.2.1.1 x hx; omega

theorem free_of_listed {b : Blk} (hb : b ∈ L.blocks) {c : Nat} (hl : b.addr ∈ L.lists c) :
    b.alloc = false := by
  obtain ⟨x, hx, hxa, hfree, -⟩ := hs.listed hl
  rwa [← hs.tiles.eq_of_addr_eq hx hb hxa]

theorem not_listed_of_alloc {b : Blk} (hb : b ∈ L.blocks) (hal : b.alloc = true) (c : Nat) :
    b.addr ∉ L.lists c := fun hl => by
  rw [hs.free_of_listed hb hl] at hal; cases hal

theorem outside_block {b x : Blk} (hb : b ∈ L.blocks) (hx : x ∈ L.blocks) (hxb : x ≠ b) {z : Nat}
    (h1 : x.addr + 8 ≤ z) (h2 : z < x.addr + x.size) : z < b.addr ∨ b.addr + b.size + 8 ≤ z := by
  have := hs.tiles.disjoint hx hb hxb; omega

theorem mem_unlink {pre post : List Blk} {b : Blk} (hsplit : L.blocks = pre ++ b :: post) {c : Nat}
    (hl : b.addr ∈ L.lists c) {x : Blk} (hx : x ∈ pre ∨ x ∈ post) {c' : Nat}
    (hxl : x.addr ∈ L.lists c') : x.addr ∈ (L.unlink c b.addr).lists c' := by
  have hb : b ∈ L.blocks := by simp [hsplit]
  have hxL : x ∈ L.blocks := by rw [hsplit]; rcases hx with hx | hx <;> simp [hx]
  rw [hs.unlink_lists hl]
  exact List.mem_filter.2 ⟨hxl, decide_eq_true fun hxb =>
    hs.ne_of_split hsplit hx (hs.tiles.eq_of_addr_eq hxL hb hxb)⟩

end Shape

namespace Inv
variable {h : Heap} {L : Layout} (hi : Inv h L)
include hi

theorem preAlloc_of_free {b : Blk} (hb : b ∈ L.blocks) (hfree : b.alloc = false) :
    (flagsBefore L.blocks b.addr).2 = true := by
  rcases hi.tiles.prev_mem b hb with h0 | ⟨x, hx, hxb⟩
  · rw [flagsBefore_of_forall fun x hx => by have := hi.bounds hx; omega]
  · rw [flagsBefore_of_mem hi.tiles hx hxb]
    simpa [hfree] using hi.noAdjFree x hx b hb hxb

/-- After a stretch `mid` of the heap is rewritten into `mid'`, whose blocks are allocated but
for `b`, the lists `lists` that still hold the free blocks outside the stretch cover every free
block but `b`, and no two adjacent blocks are free unless one of them is `b`. -/
theorem outside {pre mid mid' post : List Blk} {b : Blk} {lists : Nat → List Nat}
    (hsplit : L.blocks = pre ++ mid ++ post) (hmid' : ∀ x ∈ mid', x.alloc = true ∨ x = b)
    (hlists : ∀ x, x ∈ pre ∨ x ∈ post → ∀ c, x.addr ∈ L.lists c → x.addr ∈ lists c) :
    (∀ x ∈ pre ++ mid' ++ post, x ≠ b → x.alloc = false → ∀ c,
        findSegListClass x.size = some c → x.addr ∈ lists c) ∧
      ∀ x ∈ pre ++ mid' ++ post, ∀ y ∈ pre ++ mid' ++ post, x.addr + x.size = y.addr → x ≠ b →
        y ≠ b → x.alloc ∨ y.alloc := by
  have hout : ∀ x ∈ pre ++ mid' ++ post, x ≠ b → x.alloc = false →
      (x ∈ pre ∨ x ∈ post) ∧ x ∈ L.blocks := fun x hx hxb hxf => by
    have hpp : x ∈ pre ∨ x ∈ post := by
      rcases List.mem_append.1 hx with hx | hx
      · rcases List.mem_append.1 hx with hx | hx
        · exact .inl hx
        · rcases hmid' x hx with ha | ha
          · rw [hxf] at ha; cases ha
          · exact absurd ha hxb
      · exact .inr hx
    refine ⟨hpp, ?_⟩
    rw [hsplit]; rcases hpp with hx | hx <;> simp [hx]
  refine ⟨fun x hx hxb hxf c hc => ?_, fun x hx y hy hxy hxb hyb => ?_⟩
  · obtain ⟨hpp, hxL⟩ := hout x hx hxb hxf
    exact hlists x hpp c (hi.covered x hxL hxf c hc)
  · by_contra hne
    simp only [not_or, Bool.not_eq_true] at hne
    have := hi.noAdjFree x (hout x hx hxb hne.1).2 y (hout y hy hyb hne.2).2 hxy
    simp [hne.1, hne.2] at this

end Inv

/-- What the callers of `coalesce_block` use of it: it returns a free, listed block at least as
large as `b`; the heap satisfies the invariant; the allocated blocks and their payloads are
kept. -/
theorem CoalescePre.coalesce {h : Heap} {L : Layout} {b : Blk} (hc : CoalescePre h L b) :
    ∃ h' L' y, coalesceBlock h b.addr = some (h', y.addr) ∧ Inv h' L' ∧ Heap.SameSys h h' ∧
      Kept L h h' ∧ (∀ x, Allocated L' x ↔ Allocated L x) ∧ y ∈ L'.blocks ∧ y.alloc = false ∧
      b.size ≤ y.size ∧ ∃ c, y.addr ∈ L'.lists c := by
  obtain ⟨pre, run, post, c, h', ⟨hsplit, hne, hfree, -⟩, hbr, -, heq, hinv, hsys, hk⟩ :=
    hc.coalesceBlock_spec
  obtain ⟨s, e, -, hr, -⟩ := Tiles.split3 (hsplit ▸ hc.tiles)
  have hm := mergeRun_of_tiles hr hne
  refine ⟨h', _, mergeRun run, heq, hinv, hsys, hk, fun x => ?_, by simp, rfl, ?_, c, ?_⟩
  · simp only [Allocated, hsplit, List.mem_append, List.mem_cons]
    constructor
    · rintro ⟨hx | rfl | hx, hal⟩
      · exact ⟨.inl (.inl hx), hal⟩
      · cases hal
      · exact ⟨.inr hx, hal⟩
    · rintro ⟨(hx | hx) | hx, hal⟩
      · exact ⟨.inl hx, hal⟩
      · rw [hfree x hx] at hal; cases hal
      · exact ⟨.inr (.inr hx), hal⟩
  · rw [hm]; have := hr.bounds b hbr; dsimp only; omega
  · simp [mergedLists]

/-! ## `free` -/

/-- `free(b + 8)` of an allocated block `b`. -/
theorem Inv.free_spec {h : Heap} {L : Layout} (hi : Inv h L) {b : Blk} (hb : b ∈ L.blocks)
    (hal : b.alloc = true) :
    ∃ h' L', free h (b.addr + 8) = some h' ∧ Inv h' L' ∧ Heap.SameSys h h' ∧
      (∀ x, Allocated L' x ↔ Allocated L x ∧ x ≠ b) ∧ Kept L' h h' := by
  have hs := hi.toShape
  obtain ⟨pre, post, hsplit, hpre, hpost⟩ := hs.split_at hb
  have hbs := hs.bounds hb
  have hmid : Tiles b.addr [b] (b.addr + b.size) := ⟨rfl, hbs.2.2.1, hbs.2.2.2, rfl⟩
  have hsplit' : L.blocks = pre ++ [b] ++ post := by simp [hsplit]
  obtain ⟨hshape, hsys, hmem⟩ := hs.writeFree hsplit' hpre hmid hpost (List.cons_ne_nil _ _)
    fun x hx => by rw [List.mem_singleton.1 hx]; exact hs.not_listed_of_alloc hb hal
  simp only [Nat.add_sub_cancel_left] at hshape hsys hmem
  set b' : Blk := ⟨b.addr, b.size, false⟩
  -- the blocks of the freed layout
  have hout : ∀ x, x ∈ pre ∨ x ∈ post → x ≠ b := fun x hx => hs.ne_of_split hsplit hx
  obtain ⟨hcov, hadj⟩ := hi.outside hsplit' (show ∀ x ∈ [b'], x.alloc = true ∨ x = b' by simp)
    fun x _ c hx => hx
  have hc : CoalescePre _ ⟨pre ++ b' :: post, L.lists⟩ b' :=
    { hshape with
      mem := by simp
      free := rfl
      unlisted := fun c => hs.not_listed_of_alloc hb hal c
      covered := fun x hx => hcov x (by simpa using hx)
      noAdjFree := fun x hx y hy => hadj x (by simpa using hx) y (by simpa using hy) }
  obtain ⟨h', L', y, hco, hinv, hsys', hk, hal', -⟩ := hc.coalesce
  have hfree : free h (b.addr + 8) = (coalesceBlock (setNextBlockPreAllocPreMin
      (writeBlock h b.addr b.size (flagsBefore L.blocks b.addr).1 (flagsBefore L.blocks b.addr).2
        false (b.size ≠ 16)) b.addr (b.size = 16) false) b.addr).bind fun r => some r.1 := by
    simp only [free, payloadToHeader, wsize_eq, Nat.add_sub_cancel, hs.getSize_eq hb,
      hs.getPreAlloc_eq hb, hs.getPreMin_eq hb, minBlockSize_eq, Option.bind_eq_bind,
      Option.map_eq_map]
    by_cases h16 : b.size = 16
    · simp [h16]
    · simp [h16]
  have halloc : ∀ x, Allocated ⟨pre ++ b' :: post, L.lists⟩ x ↔ Allocated L x ∧ x ≠ b := by
    intro x
    simp only [Allocated, hsplit]
    constructor
    · rintro ⟨hx, hxa⟩
      have hxb' : x ≠ b' := fun hxb' => by rw [hxb'] at hxa; cases hxa
      have hx' := mem_of_mem_replace (b := b) hx hxb'
      refine ⟨⟨hx', hxa⟩, fun hxb => ?_⟩
      simp only [List.mem_append, List.mem_cons] at hx
      rcases hx with hx | hx | hx
      · exact hout x (.inl hx) hxb
      · exact hxb' hx
      · exact hout x (.inr hx) hxb
    · rintro ⟨⟨hx, hxa⟩, hxb⟩
      exact ⟨mem_of_mem_replace hx hxb, hxa⟩
  refine ⟨h', L', by rw [hfree, hco]; rfl, hinv, hsys.trans hsys', fun x => (hal' x).trans (halloc x),
    fun z hz => (hk z (InUse.mono (fun x hx => (hal' x).1 hx) hz)).trans (hmem z ?_)⟩
  obtain ⟨x, hx, hxa, h1, h2⟩ := hz
  obtain ⟨⟨hxL, -⟩, hxb⟩ := (halloc x).1 ((hal' x).1 ⟨hx, hxa⟩)
  exact hs.outside_block hb hxL hxb h1 h2

/-! ## `split_block` -/

section Split
variable {h : Heap} {L : Layout} {b : Blk} {c asize : Nat} (hi : Inv h L) (hb : b ∈ L.blocks)
  (hl : b.addr ∈ L.lists c) (hfit : asize ≤ b.size) (h16 : 16 ≤ asize) (hmod : asize % 16 = 0)
include hi hb hl hfit h16 hmod

/-- The case of `split_block` that cuts `b` in two: the first `asize` bytes are allocated, the
rest becomes a free block that is coalesced. -/
theorem Inv.split_cut (hrem : 16 ≤ b.size - asize) :
    ∃ h' L', splitBlock h b.addr asize = some h' ∧ Inv h' L' ∧ Heap.SameSys h h' ∧
      (∀ x, Allocated L' x ↔ Allocated L x ∨ x = ⟨b.addr, asize, true⟩) ∧ Kept L h h' := by
  have hs := hi.toShape
  have hfree := hs.free_of_listed hb hl
  obtain ⟨pre, post, hsplit, hpre, hpost⟩ := hs.split_at hb
  have hsplit' : L.blocks = pre ++ [b] ++ post := by simp [hsplit]
  have hbs := hs.bounds hb
  have hbm := hs.addr_mod hb
  have hlt := hs.epi_lt
  have hmid : Tiles b.addr [b] (b.addr + b.size) := ⟨rfl, hbs.2.2.1, hbs.2.2.2, rfl⟩
  obtain ⟨h1, hfix, hs1, hsys1, hk1⟩ := hs.fixFreeList_spec hl
  have hl1 := hs.unlink_lists hl
  have hpre1 : Tiles h1.heapStart pre b.addr := hsys1.heapStart ▸ hpre
  have hpost1 : Tiles (b.addr + b.size) post h1.epi := by rwa [Heap.epi, hsys1.brk]
  have hpm : getPreMin h1 b.addr = (flagsBefore L.blocks b.addr).1 := hs1.getPreMin_eq hb
  -- the words of the heap after the writes of the first branch
  set h2 := writeBlock h1 b.addr asize (flagsBefore L.blocks b.addr).1 true true false
  have hw2 := fun x (hx : x % 8 = 0) => writeBlock_word h1 b.addr (x := x)
    (flagsBefore L.blocks b.addr).1 true true false (by omega) hmod h16 (by omega) hx
  have hn2 : findNext h2 b.addr = b.addr + asize := by
    rw [findNext, getSize_writeBlock _ _ _ _ _ _ (by omega) hmod h16 (by omega)]
  set h3 := writeBlock h2 (b.addr + asize) (b.size - asize) (decide (asize = 16)) true false true
  have hw3 := fun x (hx : x % 8 = 0) => writeBlock_word h2 (b.addr + asize) (x := x)
    (decide (asize = 16)) true false true (by omega) (by omega) hrem (by omega) hx
  have hn3 : findNext h3 (b.addr + asize) = b.addr + b.size := by
    rw [findNext, getSize_writeBlock _ _ _ _ _ _ (by omega) (by omega) hrem (by omega)]; omega
  have he3 : h3.word (b.addr + b.size) = h1.word (b.addr + b.size) := by
    rw [hw3 _ (by omega), if_neg (by omega), if_neg (by omega), hw2 _ (by omega), if_neg (by omega),
      if_neg (by simp)]
  set h4 := setNextBlockPreAllocPreMin h3 (b.addr + asize) (decide (b.size - asize = 16)) false
  have hw4 : ∀ x, x % 8 = 0 → h4.word x =
      if x = b.addr + b.size then pack (getSize h1 (b.addr + b.size)) (decide (b.size - asize = 16))
        false (getAlloc h1 (b.addr + b.size))
      else h3.word x := fun x hx => by
    show (setNextBlockPreAllocPreMin _ _ _ _).word x = _
    rw [setNextBlockPreAllocPreMin_eq, hn3, Heap.word_store _ _ (by omega) hx,
      Nat.mod_eq_of_lt (pack_getSize_lt _ _ _ _ _), getSize, getAlloc, he3]
    rfl
  have hsys4 : Heap.SameSys h1 h4 := ((writeBlock_sameSys _ _ _ _ _ _ _).trans
    (writeBlock_sameSys _ _ _ _ _ _ _)).trans (setNextBlockPreAllocPreMin_sameSys _ _ _ _)
  -- the new stretch: the allocated `asize` bytes and the free rest
  have hnew : Tiles b.addr [⟨b.addr, asize, true⟩, ⟨b.addr + asize, b.size - asize, false⟩]
      (b.addr + b.size) :=
    ⟨rfl, h16, hmod, rfl, hrem, by dsimp only; omega,
      by show b.addr + asize + (b.size - asize) = b.addr + b.size; omega⟩
  have hnewT := hpre.append3 hnew hpost
  have hfl2 := flagsBefore_of_mem hnewT (x := ⟨b.addr, asize, true⟩) (by simp) rfl
  have hflE := flagsBefore_of_mem hnewT (x := ⟨b.addr + asize, b.size - asize, false⟩) (by simp)
    (by show b.addr + asize + (b.size - asize) = b.addr + b.size; omega)
  have hunl : ∀ x ∈ [b], ∀ c', x.addr ∉ (L.unlink c b.addr).lists c' := by simp [hl1]
  obtain ⟨hshape, hmem⟩ := hs1.retile hsplit' hpre1 hmid hpost1 hnew
    (by rwa [Heap.epi, hsys4.brk]) hunl hsys4.heapStart hsys4.lo (hsys4.brk ▸ hs1.brk)
    (by simp [h4, h3, h2, setNextBlockPreAllocPreMin])
    (fun x hx hx' => by
      rw [hw4 x hx, if_neg (by omega), hw3 x hx, if_neg (by omega), if_neg (by omega), hw2 x hx,
        if_neg (by omega), if_neg (by simp)])
    (fun y hy => by
      simp only [List.mem_cons, List.mem_singleton, List.not_mem_nil, or_false] at hy
      rcases hy with rfl | rfl <;> dsimp only
      · rw [hw4 _ (by omega), if_neg (by omega), hw3 _ (by omega), if_neg (by omega),
          if_neg (by omega), hw2 _ (by omega), if_pos rfl, headerOf,
          ← flagsBefore_retile_lo hmid hnew hpost le_rfl, ← hsplit', hi.preAlloc_of_free hb hfree]
      · rw [hw4 _ (by omega), if_neg (by omega), hw3 _ (by omega), if_pos rfl, headerOf, hfl2])
    (fun y hy hyf hy16 => by
      simp only [List.mem_cons, List.mem_singleton, List.not_mem_nil, or_false] at hy
      rcases hy with rfl | rfl
      · cases hyf
      · refine ⟨decide (asize = 16), true, ?_⟩
        dsimp only at hy16 ⊢
        rw [hw4 _ (by omega), if_neg (by omega), hw3 _ (by omega), if_neg (by omega),
          if_pos ⟨rfl, hy16, by omega⟩])
    (by rw [hw4 _ (by omega), if_pos rfl]; exact hs1.headerAfter_of_flags hsplit' hpost1 hflE)
  -- the precondition of coalescing the rest
  obtain ⟨hcov, hadj⟩ := hi.outside hsplit'
    (show ∀ x ∈ [Blk.mk b.addr asize true, Blk.mk (b.addr + asize) (b.size - asize) false],
      x.alloc = true ∨ x = Blk.mk (b.addr + asize) (b.size - asize) false by simp)
    fun x hx c' => hs.mem_unlink hsplit hl hx
  have hc : CoalescePre h4 ⟨pre ++ [⟨b.addr, asize, true⟩, ⟨b.addr + asize, b.size - asize, false⟩] ++
      post, (L.unlink c b.addr).lists⟩ ⟨b.addr + asize, b.size - asize, false⟩ :=
    { hshape with
      mem := by simp
      free := rfl
      unlisted := fun c' hy2 => by
        rw [hl1] at hy2
        obtain ⟨x, hx, hxa, -⟩ := hs.listed (List.mem_filter.1 hy2).1
        have := hs.tiles.eq_of_slot_eq hx hb 0 asize (by have := hs.bounds hx; omega) (by omega)
          (by rw [hxa]; rfl)
        subst this; dsimp only at hxa; omega
      covered := hcov
      noAdjFree := hadj }
  obtain ⟨h', L', y, hco, hinv, hsys', hk, hal', -⟩ := hc.coalesce
  have hcode : splitBlock h b.addr asize =
      (coalesceBlock h4 (b.addr + asize)).bind fun r => some r.1 := by
    simp only [splitBlock, hs.getSize_eq hb, hfix, Option.bind_eq_bind, Option.some_bind, hpm,
      minBlockSize_eq, ge_iff_le, if_pos hrem, hn2]
    rfl
  have hal2 : ∀ x, Allocated ⟨pre ++ [Blk.mk b.addr asize true,
      Blk.mk (b.addr + asize) (b.size - asize) false] ++ post, (L.unlink c b.addr).lists⟩ x ↔
      Allocated ⟨pre ++ [b] ++ post, L.lists⟩ x ∨ x = Blk.mk b.addr asize true :=
    allocated_replace hfree (by simp) (by simp) rfl L.lists (L.unlink c b.addr).lists
  refine ⟨h', L', by rw [hcode, hco]; rfl, hinv, (hsys1.trans hsys4).trans hsys', fun x => ?_,
    fun z hz => ?_⟩
  · rw [hal' x, hal2 x, ← hsplit']
  · obtain ⟨x, hx, hxa, hz1, hz2⟩ := hz
    have hxb : x ≠ b := fun hxb => by rw [hxb, hfree] at hxa; cases hxa
    refine (hk z (InUse.mono (fun x hx => (hal2 x).2 (.inl (hsplit' ▸ hx)))
      ⟨x, hx, hxa, hz1, hz2⟩)).trans ?_
    exact (hmem z (hs.outside_block hb hx hxb hz1 hz2)).trans (hk1 z ⟨x, hx, hxa, hz1, hz2⟩)

omit hfit h16 hmod in
/-- The case of `split_block` that allocates all of `b`. -/
theorem Inv.split_whole (hrem : ¬ 16 ≤ b.size - asize) :
    ∃ h' L', splitBlock h b.addr asize = some h' ∧ Inv h' L' ∧ Heap.SameSys h h' ∧
      (∀ x, Allocated L' x ↔ Allocated L x ∨ x = ⟨b.addr, b.size, true⟩) ∧ Kept L h h' := by
  have hs := hi.toShape
  have hfree := hs.free_of_listed hb hl
  obtain ⟨pre, post, hsplit, hpre, hpost⟩ := hs.split_at hb
  have hsplit' : L.blocks = pre ++ [b] ++ post := by simp [hsplit]
  have hbs := hs.bounds hb
  have hbm := hs.addr_mod hb
  have hlt := hs.epi_lt
  have hmid : Tiles b.addr [b] (b.addr + b.size) := ⟨rfl, hbs.2.2.1, hbs.2.2.2, rfl⟩
  obtain ⟨h1, hfix, hs1, hsys1, hk1⟩ := hs.fixFreeList_spec hl
  have hl1 := hs.unlink_lists hl
  have hpre1 : Tiles h1.heapStart pre b.addr := hsys1.heapStart ▸ hpre
  have hpost1 : Tiles (b.addr + b.size) post h1.epi := by rwa [Heap.epi, hsys1.brk]
  have hpm : getPreMin h1 b.addr = (flagsBefore L.blocks b.addr).1 := hs1.getPreMin_eq hb
  set h2 := writeBlock h1 b.addr b.size (flagsBefore L.blocks b.addr).1 true true false
  have hw2 := fun x (hx : x % 8 = 0) => writeBlock_word h1 b.addr (x := x)
    (flagsBefore L.blocks b.addr).1 true true false (by omega) hbs.2.2.2 hbs.2.2.1 (by omega) hx
  have hn2 : findNext h2 b.addr = b.addr + b.size := by
    rw [findNext, getSize_writeBlock _ _ _ _ _ _ (by omega) hbs.2.2.2 hbs.2.2.1 (by omega)]
  have he2 : h2.word (b.addr + b.size) = h1.word (b.addr + b.size) := by
    rw [hw2 _ (by omega), if_neg (by omega), if_neg (by simp)]
  have hpm2 : getPreMin h2 (b.addr + b.size) = decide (b.size = 16) := by
    rw [getPreMin, he2, ← getPreMin]; exact (hs1.flags_after hb).2
  set h3 := setNextBlockPreAllocPreMin h2 b.addr (decide (b.size = 16)) true
  have hw3 : ∀ x, x % 8 = 0 → h3.word x =
      if x = b.addr + b.size then pack (getSize h1 (b.addr + b.size)) (decide (b.size = 16))
        true (getAlloc h1 (b.addr + b.size))
      else h2.word x := fun x hx => by
    show (setNextBlockPreAllocPreMin _ _ _ _).word x = _
    rw [setNextBlockPreAllocPreMin_eq, hn2, Heap.word_store _ _ (by omega) hx,
      Nat.mod_eq_of_lt (pack_getSize_lt _ _ _ _ _), getSize, getAlloc, he2]
    rfl
  have hsys3 : Heap.SameSys h1 h3 :=
    (writeBlock_sameSys _ _ _ _ _ _ _).trans (setNextBlockPreAllocPreMin_sameSys _ _ _ _)
  have hnew : Tiles b.addr [⟨b.addr, b.size, true⟩] (b.addr + b.size) :=
    ⟨rfl, hbs.2.2.1, hbs.2.2.2, rfl⟩
  have hflE := flagsBefore_of_mem (hpre.append3 hnew hpost) (x := ⟨b.addr, b.size, true⟩)
    (by simp) rfl
  have hunl : ∀ x ∈ [b], ∀ c', x.addr ∉ (L.unlink c b.addr).lists c' := by simp [hl1]
  obtain ⟨hshape, hmem⟩ := hs1.retile hsplit' hpre1 hmid hpost1 hnew
    (by rwa [Heap.epi, hsys3.brk]) hunl hsys3.heapStart hsys3.lo (hsys3.brk ▸ hs1.brk)
    (by simp [h3, h2, setNextBlockPreAllocPreMin])
    (fun x hx hx' => by rw [hw3 x hx, if_neg (by omega), hw2 x hx, if_neg (by omega), if_neg (by simp)])
    (fun y hy => by
      rw [List.mem_singleton] at hy; subst hy; dsimp only
      rw [hw3 _ (by omega), if_neg (by omega), hw2 _ (by omega), if_pos rfl, headerOf,
        ← flagsBefore_retile_lo hmid hnew hpost le_rfl, ← hsplit', hi.preAlloc_of_free hb hfree])
    (fun y hy hyf => by rw [List.mem_singleton] at hy; subst hy; cases hyf)
    (by rw [hw3 _ (by omega), if_pos rfl]; exact hs1.headerAfter_of_flags hsplit' hpost1 hflE)
  obtain ⟨hcov, hadj⟩ := hi.outside hsplit'
    (show ∀ x ∈ [Blk.mk b.addr b.size true], x.alloc = true ∨ x = Blk.mk b.addr b.size true by simp)
    fun x hx c' => hs.mem_unlink hsplit hl hx
  have hinv : Inv h3 ⟨pre ++ [⟨b.addr, b.size, true⟩] ++ post, (L.unlink c b.addr).lists⟩ :=
    { hshape with
      covered := fun x hx hxf => hcov x hx (fun h => by rw [h] at hxf; cases hxf) hxf
      noAdjFree := fun x hx y hy hxy => by
        by_cases hx1 : x = ⟨b.addr, b.size, true⟩
        · exact .inl (by rw [hx1])
        by_cases hy1 : y = ⟨b.addr, b.size, true⟩
        · exact .inr (by rw [hy1])
        exact hadj x hx y hy hxy hx1 hy1 }
  have hcode : splitBlock h b.addr asize = some h3 := by
    simp only [splitBlock, hs.getSize_eq hb, hfix, Option.bind_eq_bind, Option.some_bind, hpm,
      minBlockSize_eq, ge_iff_le, if_neg hrem, hn2, hpm2]
    rfl
  have hal2 : ∀ x, Allocated ⟨pre ++ [Blk.mk b.addr b.size true] ++ post,
      (L.unlink c b.addr).lists⟩ x ↔
      Allocated ⟨pre ++ [b] ++ post, L.lists⟩ x ∨ x = Blk.mk b.addr b.size true :=
    allocated_replace hfree (by simp) (by simp) rfl L.lists (L.unlink c b.addr).lists
  refine ⟨h3, _, hcode, hinv, hsys1.trans hsys3, fun x => by rw [hal2 x, ← hsplit'], fun z hz => ?_⟩
  obtain ⟨x, hx, hxa, hz1, hz2⟩ := hz
  have hxb : x ≠ b := fun hxb => by rw [hxb, hfree] at hxa; cases hxa
  exact (hmem z (hs.outside_block hb hx hxb hz1 hz2)).trans (hk1 z ⟨x, hx, hxa, hz1, hz2⟩)

/-- `split_block(b, asize)` of a listed block `b` of at least `asize` bytes: the invariant holds
afterwards, and the allocated blocks are those before and one more at `b`, of at least `asize`
bytes, whose payload is the only one that changes. -/
theorem Inv.splitBlock_spec :
    ∃ h' L' sz, splitBlock h b.addr asize = some h' ∧ Inv h' L' ∧ Heap.SameSys h h' ∧
      (∀ x, Allocated L' x ↔ Allocated L x ∨ x = ⟨b.addr, sz, true⟩) ∧ asize ≤ sz ∧
      Kept L h h' := by
  by_cases hrem : 16 ≤ b.size - asize
  · obtain ⟨h', L', h1, h2, h3, h4, h5⟩ := hi.split_cut hb hl hfit h16 hmod hrem
    exact ⟨h', L', asize, h1, h2, h3, h4, le_rfl, h5⟩
  · obtain ⟨h', L', h1, h2, h3, h4, h5⟩ := hi.split_whole hb hl hrem
    exact ⟨h', L', b.size, h1, h2, h3, h4, hfit, h5⟩

end Split

end SystemsLabs.Malloc
