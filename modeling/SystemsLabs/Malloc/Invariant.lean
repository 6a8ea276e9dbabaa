import SystemsLabs.Malloc.Layout

/-!
# The heap representation invariant

`Inv h L` says that the heap `h` is laid out as `L` says: its blocks `L.blocks` and its free
lists `L.lists`. It is the conjunction of five parts:

1. the blocks tile the heap from `heap_start` to the epilogue header in the last word, with a
   prologue word before `heap_start` (`Shape.tiles`, `Shape.prologue`, `Shape.epilogue`);
2. no two consecutive blocks are free (`Inv.noAdjFree`);
3. every header, the epilogue's included, carries exactly the size and `alloc` bit of its block
   and the `pre_alloc` and `pre_min` bits of the block before it (`Shape.headers`);
4. every free block larger than 16 bytes has a footer with its size and a clear `alloc` bit
   (`Shape.footers`);
5. the free lists hold exactly the free blocks, each once and in the list of its class, linked
   through `seg_list`, `next` and, from class 1 on, `prev` (`Shape.lists`, `Inv.covered`).

`Shape` is all but parts 2 and the coverage half of 5: `coalesce_block` starts from a `Shape` in
which one free block is on no list and may have free neighbours.

The decoding lemmas turn the invariant into what the C code reads: `getSize`, `getAlloc`,
`getPreAlloc`, `getPreMin` of a block, the epilogue's size and `alloc` bit, and the classes and
sizes of listed blocks.
-/

namespace SystemsLabs.Malloc

/-- The epilogue header's address, the heap's last word. -/
def Heap.epi (h : Heap) : Nat := h.brk - 8

/-- The heap as the invariant describes it: its blocks and its free lists. -/
structure Layout where
  blocks : List Blk
  lists : Nat → List Nat

/-- The header a block of `bs` must have. -/
def headerOf (bs : List Blk) (b : Blk) : Nat :=
  pack b.size (flagsBefore bs b.addr).1 (flagsBefore bs b.addr).2 b.alloc

/-- The epilogue header at `e` after the blocks `bs`. -/
def epilogueOf (bs : List Blk) (e : Nat) : Nat :=
  pack 0 (flagsBefore bs e).1 (flagsBefore bs e).2 true

/-- The free lists hold free blocks of their class, each once, linked through `seg_list`, the
`next` words and, from class 1 on, the `prev` words. -/
structure ListsOk (h : Heap) (L : Layout) : Prop where
  nodup : ∀ c, (L.lists c).Nodup
  bound : ∀ c, MAX_SEG_LIST_LENGTH ≤ c → L.lists c = []
  free : ∀ c, ∀ a ∈ L.lists c, ∃ b ∈ L.blocks, b.addr = a ∧ b.alloc = false ∧
    findSegListClass b.size = some c
  head : ∀ c < MAX_SEG_LIST_LENGTH, h.segList c = (L.lists c).headD 0
  next : ∀ c, ∀ a ∈ L.lists c, h.word (nextOf a) = nextIn (L.lists c) a
  prev : ∀ c, c ≠ 0 → ∀ a ∈ L.lists c, h.word (prevOf a) = prevIn (L.lists c) a

/-- With no list past the last class, `ListsOk` is a check of the classes one by one: a bounded
quantifier, which `decide` evaluates on a concrete heap. -/
theorem ListsOk.of_forall_lt {h : Heap} {L : Layout}
    (hb : ∀ c, MAX_SEG_LIST_LENGTH ≤ c → L.lists c = [])
    (hlt : ∀ c < MAX_SEG_LIST_LENGTH, (L.lists c).Nodup ∧
      (∀ a ∈ L.lists c, ∃ b ∈ L.blocks, b.addr = a ∧ b.alloc = false ∧
        findSegListClass b.size = some c) ∧
      h.segList c = (L.lists c).headD 0 ∧
      (∀ a ∈ L.lists c, h.word (nextOf a) = nextIn (L.lists c) a) ∧
      (c ≠ 0 → ∀ a ∈ L.lists c, h.word (prevOf a) = prevIn (L.lists c) a)) :
    ListsOk h L := by
  have lt_of_mem : ∀ {c a}, a ∈ L.lists c → c < MAX_SEG_LIST_LENGTH := fun {c _} ha => by
    by_contra hc; simp [hb c (not_lt.1 hc)] at ha
  refine ⟨fun c => ?_, hb, fun c a ha => (hlt c (lt_of_mem ha)).2.1 a ha,
    fun c hc => (hlt c hc).2.2.1, fun c a ha => (hlt c (lt_of_mem ha)).2.2.2.1 a ha,
    fun c h0 a ha => (hlt c (lt_of_mem ha)).2.2.2.2 h0 a ha⟩
  rcases lt_or_le c MAX_SEG_LIST_LENGTH with hc | hc
  · exact (hlt c hc).1
  · simp [hb c hc]

/-- Parts 1, 3, 4 and the list half of 5 of the invariant. -/
structure Shape (h : Heap) (L : Layout) : Prop where
  lo : h.lo % 16 = 0
  start : h.heapStart = h.lo + 8
  brk : h.brk ≤ 2 ^ 63
  tiles : Tiles h.heapStart L.blocks h.epi
  prologue : h.word (h.heapStart - 8) = pack 0 false true true
  headers : ∀ b ∈ L.blocks, h.word b.addr = headerOf L.blocks b
  epilogue : h.word h.epi = epilogueOf L.blocks h.epi
  footers : ∀ b ∈ L.blocks, b.alloc = false → b.size ≠ 16 →
    ∃ pm pa, h.word (b.addr + b.size - 8) = pack b.size pm pa false
  lists : ListsOk h L

/-- The heap representation invariant of `mm.c`. -/
structure Inv (h : Heap) (L : Layout) extends Shape h L : Prop where
  noAdjFree : ∀ x ∈ L.blocks, ∀ y ∈ L.blocks, x.addr + x.size = y.addr → x.alloc ∨ y.alloc
  covered : ∀ b ∈ L.blocks, b.alloc = false → ∀ c, findSegListClass b.size = some c →
    b.addr ∈ L.lists c

/-! ## Decoding -/

theorem findSegListClass_pos {size c : Nat} (h16 : 16 < size) (h63 : size ≤ 2 ^ 63)
    (hc : findSegListClass size = some c) : 1 ≤ c := by
  obtain ⟨d, hd, hlo, hhi⟩ := exists_between h16 h63
  rw [findSegListClass_of_between hd hlo hhi h63] at hc
  cases hc; simp only [le_min_iff]; omega

theorem findSegListClass_zero {size : Nat} (h63 : size ≤ 2 ^ 63)
    (hc : findSegListClass size = some 0) : size ≤ 16 := by
  by_contra h
  exact absurd (findSegListClass_pos (by omega) h63 hc) (by decide)

namespace Shape
variable {h : Heap} {L : Layout} (hs : Shape h L)
include hs

theorem start_mod : h.heapStart % 16 = 8 := by rw [hs.start]; have := hs.lo; omega

theorem bounds {b : Blk} (hb : b ∈ L.blocks) :
    h.heapStart ≤ b.addr ∧ b.addr + b.size ≤ h.epi ∧ 16 ≤ b.size ∧ b.size % 16 = 0 :=
  hs.tiles.bounds b hb

theorem addr_mod {b : Blk} (hb : b ∈ L.blocks) : b.addr % 16 = 8 :=
  hs.tiles.addr_mod hs.start_mod b hb

theorem epi_mod : h.epi % 16 = 8 := hs.tiles.end_mod hs.start_mod

theorem start_le_epi : h.heapStart ≤ h.epi := hs.tiles.le

theorem epi_lt : h.epi < 2 ^ 63 := by
  have := hs.start_le_epi; have := hs.brk; have := hs.start; unfold Heap.epi at *; omega

theorem size_lt {b : Blk} (hb : b ∈ L.blocks) : b.size < 2 ^ 63 := by
  have := hs.bounds hb; have := hs.epi_lt; omega

theorem getSize_eq {b : Blk} (hb : b ∈ L.blocks) : getSize h b.addr = b.size := by
  rw [getSize, hs.headers b hb, headerOf, extractSize_pack _ _ _ (hs.bounds hb).2.2.2
    (by have := hs.size_lt hb; omega)]

theorem getAlloc_eq {b : Blk} (hb : b ∈ L.blocks) : getAlloc h b.addr = b.alloc := by
  rw [getAlloc, hs.headers b hb, headerOf, extractAlloc_pack _ _ _ (hs.bounds hb).2.2.2]

theorem getPreAlloc_eq {b : Blk} (hb : b ∈ L.blocks) :
    getPreAlloc h b.addr = (flagsBefore L.blocks b.addr).2 := by
  rw [getPreAlloc, hs.headers b hb, headerOf, preAlloc_pack _ _ _ (hs.bounds hb).2.2.2]

theorem getPreMin_eq {b : Blk} (hb : b ∈ L.blocks) :
    getPreMin h b.addr = (flagsBefore L.blocks b.addr).1 := by
  rw [getPreMin, hs.headers b hb, headerOf, preMin_pack _ _ _ (hs.bounds hb).2.2.2]

theorem getSize_epi : getSize h h.epi = 0 := by
  rw [getSize, hs.epilogue, epilogueOf, extractSize_pack _ _ _ rfl (by norm_num)]

theorem getAlloc_epi : getAlloc h h.epi = true := by
  rw [getAlloc, hs.epilogue, epilogueOf, extractAlloc_pack _ _ _ rfl]

/-- The header after a block, the epilogue's included, carries that block's `alloc` bit as
`pre_alloc` and whether it has 16 bytes as `pre_min`. -/
theorem flags_after {b : Blk} (hb : b ∈ L.blocks) :
    getPreAlloc h (b.addr + b.size) = b.alloc ∧
      getPreMin h (b.addr + b.size) = decide (b.size = 16) := by
  have hfl := flagsBefore_of_mem hs.tiles hb rfl
  rcases hs.tiles.next_mem b hb with he | ⟨y, hy, hya⟩
  · rw [he, getPreAlloc, getPreMin, hs.epilogue, epilogueOf, ← he, hfl,
      preAlloc_pack _ _ _ rfl, preMin_pack _ _ _ rfl]
    exact ⟨rfl, rfl⟩
  · rw [← hya, hs.getPreAlloc_eq hy, hs.getPreMin_eq hy, hya, hfl]
    exact ⟨rfl, rfl⟩

theorem listed {c a : Nat} (ha : a ∈ L.lists c) :
    ∃ b ∈ L.blocks, b.addr = a ∧ b.alloc = false ∧ findSegListClass b.size = some c :=
  hs.lists.free c a ha

theorem zero_not_mem (c : Nat) : 0 ∉ L.lists c := fun h0 => by
  obtain ⟨b, hb, hba, -⟩ := hs.listed h0
  have := hs.bounds hb; have := hs.start; omega

/-- Lists from class 1 on hold blocks of more than 16 bytes. -/
theorem listed_size {c a : Nat} (hc : c ≠ 0) (ha : a ∈ L.lists c) :
    ∃ b ∈ L.blocks, b.addr = a ∧ b.alloc = false ∧ 16 < b.size := by
  obtain ⟨b, hb, rfl, hfree, hcls⟩ := hs.listed ha
  refine ⟨b, hb, rfl, hfree, ?_⟩
  by_contra hle
  rw [findSegListClass_le_16 (by omega)] at hcls
  exact hc (Option.some.inj hcls).symm

theorem class_lt {c a : Nat} (ha : a ∈ L.lists c) : c < MAX_SEG_LIST_LENGTH := by
  by_contra hc
  rw [hs.lists.bound c (by omega)] at ha
  exact absurd ha (List.not_mem_nil _)

end Shape

end SystemsLabs.Malloc
