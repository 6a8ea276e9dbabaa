import SystemsLabs.Malloc.Client

/-!
# The heap checker `mm_checkheap`

`mm_checkheap` checks, in order: the prologue footer; for each block up to the first of size 0
its alignment, its header against its footer unless it has 16 bytes, and that no two
consecutive blocks are free; the epilogue header; `check_free_list`, that every `next` link of
every list lies within `[mem_heap_lo(), mem_heap_hi()]`; and `check_free_block_counts`, that
the walk finds as many free blocks as the lists hold. Its `line` argument only goes into the
messages, which are not modelled, nor are the `int` counters' bounds. Every loop has `listFuel`
steps, and `none` means, as in the rest of the model, that it never ends.

* `Inv.mmCheckheap_of_free`: every heap that satisfies the invariant and has a free block is
  rejected, because the `next` of the last block of a list is `NULL`, below `mem_heap_lo()`.
* `checkFreeListFrom_cycle`: a walk that meets a cycle of links inside the heap runs out of
  every fuel. A second `free` of a block makes its `next` point to itself
  (`mmCheckheap_double_free`).
-/

namespace SystemsLabs.Malloc
open Heap

/-! ## The checker -/

/-- `check_header_footer(block)`: the footer has the header's size and `alloc` bit. -/
def checkHeaderFooter (h : Heap) (block : Nat) : Bool :=
  getSize h block == extractSize (h.word (headerToFooter h block)) &&
    getAlloc h block == extractAlloc (h.word (headerToFooter h block))

/-- The block loop of `mm_checkheap` from `block`, with `pre_alloc_flag`: `some (some b)` when
it leaves the loop at `b`, the first block of size 0, and `some none` when it returns `false`. -/
def checkBlocks (h : Heap) : Nat → Nat → Bool → Option (Option Nat)
  | 0, _, _ => none
  | fuel + 1, block, preAllocFlag =>
    let size := getSize h block
    if size = 0 then some (some block)
    else if size % dsize ≠ 0 ∨ (size ≠ minBlockSize ∧ checkHeaderFooter h block = false) then
      some none
    else if getAlloc h block = false ∧ preAllocFlag = false then some none
    else checkBlocks h fuel (findNext h block) (getAlloc h block)

/-- The walk of `check_free_list` along a list from `temp`: `false` at the first `next` outside
`[mem_heap_lo(), mem_heap_hi()]`, `true` at `NULL`. -/
def checkFreeListFrom (h : Heap) : Nat → Nat → Option Bool
  | 0, _ => none
  | fuel + 1, temp =>
    if temp = 0 then some true
    else if h.word (nextOf temp) > h.brk - 1 ∨ h.word (nextOf temp) < h.lo then some false
    else checkFreeListFrom h fuel (h.word (nextOf temp))

/-- `check_free_list` over the classes `cs`, in order. -/
def checkFreeListClasses (h : Heap) : List Nat → Option Bool
  | [] => some true
  | c :: cs => (checkFreeListFrom h listFuel (h.segList c)).bind fun ok =>
    if ok then checkFreeListClasses h cs else some false

/-- `check_free_list()`. -/
def checkFreeList (h : Heap) : Option Bool :=
  checkFreeListClasses h (List.range MAX_SEG_LIST_LENGTH)

/-- The first loop of `check_free_block_counts`: the free blocks from `block` to the first
block of size 0. -/
def countFreeBlocks (h : Heap) : Nat → Nat → Option Nat
  | 0, _ => none
  | fuel + 1, block =>
    if getSize h block = 0 then some 0
    else (countFreeBlocks h fuel (findNext h block)).map fun n =>
      if getAlloc h block then n else n + 1

/-- The inner loop of the second loop of `check_free_block_counts`: the blocks of a list from
`temp`. -/
def countList (h : Heap) : Nat → Nat → Option Nat
  | 0, _ => none
  | fuel + 1, temp =>
    if temp = 0 then some 0 else (countList h fuel (h.word (nextOf temp))).map (· + 1)

/-- `check_free_block_counts()`. -/
def checkFreeBlockCounts (h : Heap) : Option Bool :=
  (countFreeBlocks h listFuel h.heapStart).bind fun freeBlockCount =>
    ((List.range MAX_SEG_LIST_LENGTH).foldlM
      (fun n c => (countList h listFuel (h.segList c)).map (n + ·)) 0).map fun freeListCount =>
        freeBlockCount == freeListCount

/-- `mm_checkheap(line)`. -/
def mmCheckheap (h : Heap) : Option Bool :=
  let prologueFooter := h.word (findPrevFooter h.heapStart)
  if extractSize prologueFooter ≠ 0 ∨ extractAlloc prologueFooter ≠ true then some false
  else (checkBlocks h listFuel h.heapStart true).bind fun
    | none => some false
    | some block =>
      if extractSize (h.word block) ≠ 0 ∨ extractAlloc (h.word block) ≠ true then some false
      else (checkFreeList h).bind fun ok => if ok then checkFreeBlockCounts h else some false

/-! ## Walks over a heap that satisfies the invariant -/

/-- The header of size 0 of the prologue footer and the epilogue. -/
theorem extractSize_pack_zero (pm pa al : Bool) : extractSize (pack 0 pm pa al) = 0 :=
  extractSize_pack pm pa al rfl (by norm_num)

theorem extractAlloc_pack_zero (pm pa al : Bool) : extractAlloc (pack 0 pm pa al) = al :=
  extractAlloc_pack pm pa al rfl

theorem Tiles.length_le {a e : Nat} : ∀ {bs : List Blk}, Tiles a bs e → a + 16 * bs.length ≤ e
  | [], h => le_of_eq (by simpa using h)
  | _ :: _, ⟨_, h16, _, h⟩ => by have := Tiles.length_le h; simp only [List.length_cons]; omega

/-- The block loop over blocks that tile `[a, e)` with an epilogue of size 0 at `e` returns
`false` or leaves at `e`. -/
theorem checkBlocks_tiles (h : Heap) {e : Nat} (he : getSize h e = 0) :
    ∀ (bs : List Blk) (a : Nat) (flag : Bool) (fuel : Nat), Tiles a bs e →
      (∀ b ∈ bs, getSize h b.addr = b.size) → bs.length < fuel →
      checkBlocks h fuel a flag = some none ∨ checkBlocks h fuel a flag = some (some e)
  | [], a, flag, fuel + 1, ht, _, _ => by
    have hae : a = e := ht
    subst hae
    exact .inr (by simp [checkBlocks, he])
  | b :: bs, a, flag, fuel + 1, ht, hsz, hlen => by
    obtain ⟨rfl, h16, -, ht'⟩ := ht
    have hb := hsz b (List.mem_cons_self _ _)
    have hrec := checkBlocks_tiles h he bs (findNext h b.addr) (getAlloc h b.addr) fuel
      (by rwa [findNext, hb]) (fun x hx => hsz x (List.mem_cons_of_mem _ hx))
      (by simpa using hlen)
    simp only [checkBlocks, hb, if_neg (show b.size ≠ 0 by omega)]
    split_ifs
    · exact .inl rfl
    · exact .inl rfl
    · exact hrec

/-- A walk of `check_free_list` along a linked list inside the heap returns `false` if the list
is nonempty, at the `NULL` after its last block, and `true` if it is empty. -/
theorem checkFreeListFrom_linked (h : Heap) (hlo : 0 < h.lo) :
    ∀ (L : List Nat) (fuel : Nat), Linked h L → L.length < fuel →
      (∀ x ∈ L, h.lo ≤ x ∧ x < h.brk) → checkFreeListFrom h fuel (L.headD 0) = some L.isEmpty
  | [], fuel + 1, _, _, _ => rfl
  | y :: ys, fuel + 1, hl, hlen, hb => by
    have hy0 : y ≠ 0 := fun h => hl.2.1 (h ▸ List.mem_cons_self _ _)
    rw [List.headD_cons, checkFreeListFrom, if_neg hy0, hl.next_head]
    cases ys with
    | nil => rw [List.headD_nil, if_pos (.inr hlo)]; rfl
    | cons z zs =>
      have hz := hb z (List.mem_cons_of_mem _ (List.mem_cons_self _ _))
      rw [List.headD_cons, if_neg (by omega)]
      exact checkFreeListFrom_linked h hlo (z :: zs) fuel hl.tail (by simpa using hlen)
        fun x hx => hb x (List.mem_cons_of_mem _ hx)

namespace Shape
variable {h : Heap} {L : Layout} (hs : Shape h L)
include hs

theorem listed_bounds {c x : Nat} (hx : x ∈ L.lists c) : h.lo ≤ x ∧ x < h.brk := by
  obtain ⟨b, hb, rfl, -⟩ := hs.listed hx
  have := hs.bounds hb; have := hs.start; have := hs.epi_mod
  unfold Heap.epi at *; omega

/-- `check_free_list` over classes below 14 returns whether all their lists are empty. -/
theorem checkFreeListClasses_eq (hlo : 0 < h.lo) (cs : List Nat)
    (hcs : ∀ c ∈ cs, c < MAX_SEG_LIST_LENGTH) :
    checkFreeListClasses h cs = some (cs.all fun c => (L.lists c).isEmpty) := by
  induction cs with
  | nil => rfl
  | cons c cs ih =>
    rw [checkFreeListClasses, hs.lists.head c (hcs c (List.mem_cons_self _ _)),
      checkFreeListFrom_linked h hlo _ _ (hs.linked c) (hs.length_lt c)
        fun x hx => hs.listed_bounds hx, Option.some_bind,
      ih fun c hc => hcs c (List.mem_cons_of_mem _ hc)]
    cases hc : (L.lists c).isEmpty <;> simp [hc]

end Shape

/-- Every heap that satisfies the invariant and has a free block fails `mm_checkheap`: if no
earlier check fails, `check_free_list` meets the `NULL` that ends the free block's list and
finds it below `mem_heap_lo()`. -/
theorem Inv.mmCheckheap_of_free {h : Heap} {L : Layout} (hi : Inv h L) (hlo : 0 < h.lo)
    (hfree : ∃ b ∈ L.blocks, b.alloc = false) : mmCheckheap h = some false := by
  have hs := hi.toShape
  obtain ⟨b, hb, hbf⟩ := hfree
  -- the free block is listed in its class, below 14
  obtain ⟨c, hc, hc14⟩ := findSegListClass_lt (show b.size ≤ 2 ^ 63 by
    have := hs.bounds hb; have := hs.epi_lt; omega)
  have hbl := hi.covered b hb hbf c hc
  have hlists : checkFreeList h = some false := by
    rw [checkFreeList, hs.checkFreeListClasses_eq hlo _ fun c hc => List.mem_range.1 hc]
    have hne : (L.lists c).isEmpty = false := by
      simpa [List.isEmpty_iff] using List.ne_nil_of_mem hbl
    congr 1
    rw [Bool.eq_false_iff, ne_eq, List.all_eq_true]
    exact fun hall => by rw [hall c (List.mem_range.2 hc14)] at hne; cases hne
  have hepi : getSize h h.epi = 0 := by
    rw [getSize, hs.epilogue, epilogueOf, extractSize_pack_zero]
  have hlen : L.blocks.length < listFuel := by
    have := Tiles.length_le hs.tiles; have := hs.epi_lt; unfold listFuel; omega
  have hpro : findPrevFooter h.heapStart = h.heapStart - 8 := rfl
  simp only [mmCheckheap, hpro, hs.prologue, extractSize_pack_zero,
    extractAlloc_pack_zero, ne_eq, not_true_eq_false, or_self, if_false]
  rcases checkBlocks_tiles h hepi L.blocks h.heapStart true listFuel hs.tiles
    (fun x hx => hs.getSize_eq hx) hlen with hw | hw
  · rw [hw]; rfl
  · rw [hw, Option.some_bind]
    simp only [hs.epilogue, epilogueOf, extractSize_pack_zero,
      extractAlloc_pack_zero, ne_eq, not_true_eq_false, or_self, if_false, hlists, Option.some_bind]
    rfl

/-- Right after `mm_init` the heap satisfies the invariant and has no allocated block. -/
theorem okInit_inv : ∃ L, Inv okInit.1 L ∧ ∀ x, ¬ Allocated L x := by
  obtain ⟨h', ok, hinit, hpost⟩ := mmInit_spec (h := okHeap) ⟨rfl, rfl, rfl⟩
  rw [okInit_eq, Option.some_inj] at hinit
  rcases hpost with ⟨-, rfl⟩ | ⟨L, hL, hal⟩
  · exact absurd (show okInit.2 = true by decide) (by rw [hinit]; simp)
  rw [← show okInit.1 = h' by rw [hinit]] at hL
  exact ⟨L, hL, hal⟩

/-- Right after `mm_init` the heap is one free block, and `mm_checkheap` rejects it. -/
theorem mmCheckheap_okInit :
    (∃ L, Inv okInit.1 L ∧ ∃ b ∈ L.blocks, b.alloc = false) ∧ 0 < okInit.1.lo ∧
      mmCheckheap okInit.1 = some false := by
  obtain ⟨L, hL, hal⟩ := okInit_inv
  have hne : L.blocks ≠ [] := fun he => by
    have h0 : okInit.1.heapStart = okInit.1.epi := by simpa [he, Tiles] using hL.tiles
    exact absurd h0 (by decide)
  obtain ⟨b, bs, hbs⟩ := List.exists_cons_of_ne_nil hne
  have hb : b ∈ L.blocks := hbs ▸ List.mem_cons_self b bs
  have hfree : ∃ b ∈ L.blocks, b.alloc = false :=
    ⟨b, hb, Bool.eq_false_iff.2 fun ha => hal b ⟨hb, ha⟩⟩
  exact ⟨⟨L, hL, hfree⟩, by decide, Inv.mmCheckheap_of_free hL (by decide) hfree⟩

/-! ## Cyclic lists -/

/-- A walk of `check_free_list` from a node of a set of nonzero nodes whose `next` links lie
inside the heap and inside the set runs out of every fuel: the loop never ends. -/
theorem checkFreeListFrom_cycle (h : Heap) {S : Nat → Prop}
    (hS : ∀ x, S x → x ≠ 0 ∧ h.lo ≤ h.word (nextOf x) ∧ h.word (nextOf x) ≤ h.brk - 1 ∧
      S (h.word (nextOf x))) :
    ∀ fuel x, S x → checkFreeListFrom h fuel x = none
  | 0, _, _ => rfl
  | fuel + 1, x, hx => by
    obtain ⟨h0, hlo, hhi, hn⟩ := hS x hx
    rw [checkFreeListFrom, if_neg h0, if_neg (by omega)]
    exact checkFreeListFrom_cycle h hS fuel _ hn

/-- `check_free_list` never ends when the first nonempty list enters such a cycle. -/
theorem checkFreeListClasses_cycle (h : Heap) {S : Nat → Prop}
    (hS : ∀ x, S x → x ≠ 0 ∧ h.lo ≤ h.word (nextOf x) ∧ h.word (nextOf x) ≤ h.brk - 1 ∧
      S (h.word (nextOf x))) {c : Nat} (hc : S (h.segList c)) (post : List Nat) :
    ∀ pre : List Nat, (∀ c ∈ pre, h.segList c = 0) →
      checkFreeListClasses h (pre ++ c :: post) = none
  | [], _ => by
    rw [List.nil_append, checkFreeListClasses, checkFreeListFrom_cycle h hS _ _ hc]; rfl
  | c' :: pre, hpre => by
    rw [List.cons_append, checkFreeListClasses, hpre c' (List.mem_cons_self _ _)]
    exact checkFreeListClasses_cycle h hS hc post pre fun x hx =>
      hpre x (List.mem_cons_of_mem _ hx)

/-- The heap after `free(p)` of the block `malloc(24)` returned. -/
def okFree : Heap := (free okMalloc.1 32).get (by decide)

/-- The heap after a second `free(p)`. -/
def okDoubleFree : Heap := (free okFree 32).get (by decide)

theorem okFree_eq : free okMalloc.1 32 = some okFree := (Option.some_get _).symm

theorem okDoubleFree_eq : free okFree 32 = some okDoubleFree := (Option.some_get _).symm

/-- A double `free(p)` re-inserts `p`'s block at the head of its own list, so that its `next`
is itself; the block list still passes every check before `check_free_list`, and
`mm_checkheap` never returns. -/
theorem mmCheckheap_double_free :
    free okMalloc.1 32 = some okFree ∧ free okFree 32 = some okDoubleFree ∧
      okDoubleFree.segList 8 = 24 ∧ okDoubleFree.word (nextOf 24) = 24 ∧
      (∀ fuel, checkFreeListFrom okDoubleFree fuel 24 = none) ∧ mmCheckheap okDoubleFree = none := by
  have hseg : okDoubleFree.segList 8 = 24 := by decide
  have hnext : okDoubleFree.word (nextOf 24) = 24 := by decide
  have hS : ∀ x, x = 24 → x ≠ 0 ∧ okDoubleFree.lo ≤ okDoubleFree.word (nextOf x) ∧
      okDoubleFree.word (nextOf x) ≤ okDoubleFree.brk - 1 ∧ okDoubleFree.word (nextOf x) = 24 := by
    rintro x rfl
    rw [hnext]
    exact ⟨by decide, by decide, by decide, rfl⟩
  have hlists : checkFreeList okDoubleFree = none := by
    rw [checkFreeList, show List.range MAX_SEG_LIST_LENGTH = List.range 8 ++ 8 :: [9, 10, 11, 12, 13]
      from rfl]
    exact checkFreeListClasses_cycle okDoubleFree hS hseg _ _ (by decide)
  have hpro : okDoubleFree.word (findPrevFooter okDoubleFree.heapStart) = pack 0 false true true := by
    decide
  have hwalk : checkBlocks okDoubleFree listFuel okDoubleFree.heapStart true = some (some 4120) := by
    decide
  have hepi : okDoubleFree.word 4120 = pack 0 false false true := by decide
  refine ⟨okFree_eq, okDoubleFree_eq, hseg, hnext, fun fuel => checkFreeListFrom_cycle _ hS fuel 24 rfl, ?_⟩
  simp only [mmCheckheap, hpro, hwalk, hepi, hlists, extractSize_pack_zero,
    extractAlloc_pack_zero, ne_eq, not_true_eq_false, or_self, if_false, Option.some_bind]
  rfl

end SystemsLabs.Malloc
