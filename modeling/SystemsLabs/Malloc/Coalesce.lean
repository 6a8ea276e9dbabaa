import SystemsLabs.Malloc.Retile

/-!
# Coalescing

`coalesce_block(b)` starts from `CoalescePre`: the representation invariant, except that the free
block `b` is on no list and may have free neighbours. `coalesceBlock_spec` is what it does in all
four of its cases: it returns the first block of the maximal run of free blocks around `b`, the
heap then satisfies `Inv` for the layout in which that run is one free block (`mergeRun`), its
absorbed neighbours are off their lists and the merged block is at the head of the list of its
class (`mergedLists`), and the allocated payloads are kept.

The proof follows the code. The neighbours are the blocks around `b` in the tiling
(`CoalescePre.split`); the flags `coalesce_block` reads (`pre_alloc`, `alloc` of the next block,
`pre_min`) and the predecessor it finds through `pre_min` or the footer (`preBlock_eq`) are read
off the layout. Each absorbed neighbour is unlinked by `fixFreeList_spec`; the writes of
`handle_case_2` to `handle_case_4` are `Shape.writeFree` over the run (`mergedWrites`);
`handle_case_1` rewrites the next header with the word it already holds (`Shape.setNext_self`).
`CoalescePre.finish` pushes the merged block with `insertBlockLIFO_spec` and shows the two parts
of `Inv` that `Shape` leaves out: no two adjacent free blocks, and every free block listed.

`MaximalFreeRun` and `mergeRun` are the run and the block that replaces it; merging free blocks
leaves the allocated blocks, and so the payloads, as they were (`inUse_merge`).
-/

namespace SystemsLabs.Malloc

/-! ## Runs of free blocks -/

/-- `run` is a maximal run of free blocks of `bs`, between `pre` and `post`. -/
def MaximalFreeRun (bs pre run post : List Blk) : Prop :=
  bs = pre ++ run ++ post ∧ run ≠ [] ∧ (∀ x ∈ run, x.alloc = false) ∧
    (∀ x ∈ pre.getLast?, x.alloc = true) ∧ ∀ y ∈ post.head?, y.alloc = true

/-- The free block that replaces a run: from the run's first header, as large as the run. -/
def mergeRun (run : List Blk) : Blk :=
  ⟨(run.headD ⟨0, 0, false⟩).addr, (run.map Blk.size).sum, false⟩

theorem mergeRun_of_tiles {s e : Nat} {run : List Blk} (hr : Tiles s run e) (hne : run ≠ []) :
    mergeRun run = ⟨s, e - s, false⟩ := by
  obtain ⟨b, t, rfl⟩ := List.exists_cons_of_ne_nil hne
  simp only [mergeRun, List.headD_cons, hr.head_addr, hr.end_eq (e := e) ▸ hr]
  rw [hr.end_eq]; simp

theorem inUse_merge {bs pre run post : List Blk} (hsplit : bs = pre ++ run ++ post)
    (hrun : ∀ x ∈ run, x.alloc = false) {m : Blk} (hm : m.alloc = false)
    (lists lists' : Nat → List Nat) (y : Nat) :
    InUse ⟨pre ++ m :: post, lists'⟩ y ↔ InUse ⟨bs, lists⟩ y := by
  subst hsplit
  unfold InUse
  constructor <;> rintro ⟨x, hx, halloc, h1, h2⟩ <;> refine ⟨x, ?_, halloc, h1, h2⟩ <;>
    simp only [List.mem_append, List.mem_cons] at hx ⊢
  · rcases hx with hx | rfl | hx
    · exact .inl (.inl hx)
    · rw [hm] at halloc; cases halloc
    · exact .inr hx
  · rcases hx with (hx | hx) | hx
    · exact .inl hx
    · rw [hrun x hx] at halloc; cases halloc
    · exact .inr (.inr hx)

namespace Shape
variable {h : Heap} {L : Layout} (hs : Shape h L)
include hs

theorem setNext_self {b : Blk} (hb : b ∈ L.blocks) (hfree : b.alloc = false) :
    setNextBlockPreAllocPreMin h b.addr (decide (b.size = 16)) false = h := by
  rw [setNextBlockPreAllocPreMin_eq, findNext, hs.getSize_eq hb]
  suffices pack (getSize h (b.addr + b.size)) (decide (b.size = 16)) false
      (getAlloc h (b.addr + b.size)) = h.word (b.addr + b.size) by
    rw [this, Heap.store_word_self]
  have hfl : flagsBefore L.blocks (b.addr + b.size) = (decide (b.size = 16), false) := by
    rw [flagsBefore_of_mem hs.tiles hb rfl, hfree]
  rcases hs.tiles.next_mem b hb with he | ⟨y, hy, hya⟩
  · rw [he, hs.getSize_epi, hs.getAlloc_epi, hs.epilogue, epilogueOf, ← he, hfl]
  · rw [← hya, hs.getSize_eq hy, hs.getAlloc_eq hy, hs.headers y hy, headerOf, hya, hfl]

theorem handleCase1_eq {b : Blk} (hb : b ∈ L.blocks) (hfree : b.alloc = false) :
    handleCase1 h b.addr b.size = h := by
  have := (hs.bounds hb).2.2.1
  have hself := hs.setNext_self hb hfree
  unfold handleCase1
  split_ifs with h16 h16'
  · rw [minBlockSize_eq] at h16
    rw [show decide (b.size = 16) = true from decide_eq_true h16] at hself; exact hself
  · rw [minBlockSize_eq] at h16 h16'
    rw [show decide (b.size = 16) = false from decide_eq_false h16] at hself; exact hself
  · rfl

theorem unlink_lists {c a : Nat} (ha : a ∈ L.lists c) :
    (L.unlink c a).lists = fun c' => (L.lists c').filter (· ≠ a) := by
  funext c'
  simp only [Layout.unlink, Function.update_apply]
  split_ifs with hcc
  · subst hcc
    rw [(hs.lists.nodup c').erase_eq_filter a]
    exact List.filter_congr fun x _ => by by_cases hx : x = a <;> simp [hx]
  · refine (List.filter_eq_self.2 fun x hx => ?_).symm
    simpa using fun (hxa : x = a) => hcc (hs.class_unique (hxa ▸ hx) ha)

end Shape

/-! ## The precondition and the result -/

/-- The state `coalesce_block(b)` starts from: the shape of the invariant, with the free block
`b` on no list, every other free block listed, and no two adjacent free blocks unless one of them
is `b`. `b`'s header and footer, and the flags of the header after it, are those `Shape` asks
of every block. -/
structure CoalescePre (h : Heap) (L : Layout) (b : Blk) extends Shape h L : Prop where
  mem : b ∈ L.blocks
  free : b.alloc = false
  unlisted : ∀ c, b.addr ∉ L.lists c
  covered : ∀ x ∈ L.blocks, x ≠ b → x.alloc = false → ∀ c, findSegListClass x.size = some c →
    x.addr ∈ L.lists c
  noAdjFree : ∀ x ∈ L.blocks, ∀ y ∈ L.blocks, x.addr + x.size = y.addr → x ≠ b → y ≠ b →
    x.alloc ∨ y.alloc

/-- The free lists without the blocks of a run. -/
def keepLists (L : Layout) (run : List Blk) (c : Nat) : List Nat :=
  (L.lists c).filter fun a => a ∉ run.map Blk.addr

/-- The free lists after `coalesce_block`: the blocks of the run off their lists, the merged
block at the head of list `c`. -/
def mergedLists (L : Layout) (run : List Blk) (c : Nat) : Nat → List Nat :=
  Function.update (keepLists L run) c ((mergeRun run).addr :: keepLists L run c)

theorem Tiles.split3 {a z : Nat} {l₁ l₂ l₃ : List Blk} (h : Tiles a (l₁ ++ l₂ ++ l₃) z) :
    ∃ s e, Tiles a l₁ s ∧ Tiles s l₂ e ∧ Tiles e l₃ z := by
  obtain ⟨e, h12, h3⟩ := Tiles.append_iff.1 h
  obtain ⟨s, h1, h2⟩ := Tiles.append_iff.1 h12
  exact ⟨s, e, h1, h2, h3⟩

namespace CoalescePre
variable {h : Heap} {L : Layout} {b : Blk} (hc : CoalescePre h L b)
include hc

theorem split : ∃ pre post, L.blocks = pre ++ b :: post ∧ Tiles h.heapStart pre b.addr ∧
    Tiles (b.addr + b.size) post h.epi := by
  obtain ⟨pre, post, hsplit⟩ := List.append_of_mem hc.mem
  have := Tiles.split (hsplit ▸ hc.tiles : Tiles h.heapStart (pre ++ b :: post) h.epi)
  exact ⟨pre, post, hsplit, this.1, this.2.1⟩

/-- Pushing the merged block of a maximal run: the invariant holds again, with the run's blocks
off their lists and the merged block at the head of the list of its class. -/
theorem finish {pre run post : List Blk} (hrun : MaximalFreeRun L.blocks pre run post)
    (hbr : b ∈ run) {h4 : Heap} (hs4 : Shape h4 ⟨pre ++ mergeRun run :: post, keepLists L run⟩)
    (hsys : Heap.SameSys h h4) (hk : Kept L h h4) :
    ∃ c h5, findSegListClass (mergeRun run).size = some c ∧
      insertBlockLIFO h4 (mergeRun run).addr = some h5 ∧
      Inv h5 ⟨pre ++ mergeRun run :: post, mergedLists L run c⟩ ∧ Heap.SameSys h h5 ∧
      Kept L h h5 := by
  obtain ⟨hsplit, hne, hfree, hlast, hhead⟩ := hrun
  obtain ⟨s, e, hpre, hr, hpost⟩ := Tiles.split3 (hsplit ▸ hc.tiles)
  have hsm : s % 16 = 8 := hpre.end_mod hc.start_mod
  have hspan := hr.span hne hsm
  have hm : mergeRun run = ⟨s, e - s, false⟩ := mergeRun_of_tiles hr hne
  have hmem : mergeRun run ∈ pre ++ mergeRun run :: post :=
    List.mem_append_right _ (List.mem_cons_self _ _)
  obtain ⟨c, hcls, -⟩ := findSegListClass_lt (le_of_lt (hs4.size_lt hmem))
  -- the merged block's address is the run's, so it is on none of the kept lists
  have hmrun : (mergeRun run).addr ∈ run.map Blk.addr := by
    obtain ⟨x, t, rfl⟩ := List.exists_cons_of_ne_nil hne
    simp [mergeRun]
  have hmunl : ∀ c', (mergeRun run).addr ∉ keepLists L run c' := fun c' hmc => by
    simp only [keepLists, List.mem_filter, decide_eq_true_eq] at hmc; exact hmc.2 hmrun
  obtain ⟨h5, hins, hs5, hsys5, hk5⟩ := hs4.insertBlockLIFO_spec hmem rfl hmunl hcls
  -- blocks before and after the run are not `b`, nor any block of the run
  have hout : ∀ x ∈ pre ++ mergeRun run :: post, x ≠ mergeRun run →
      x ∈ L.blocks ∧ ∀ r ∈ run, r.addr ≠ x.addr := fun x hx hxm => by
    rcases List.mem_append.1 hx with hx | hx
    · have := hpre.bounds x hx
      refine ⟨hsplit ▸ List.mem_append_left _ (List.mem_append_left _ hx), fun r hr' => ?_⟩
      have := hr.bounds r hr'; omega
    · rcases List.mem_cons.1 hx with rfl | hx
      · exact absurd rfl hxm
      · have := hpost.bounds x hx
        refine ⟨hsplit ▸ List.mem_append_right _ hx, fun r hr' => ?_⟩
        have := hr.bounds r hr'; omega
  have hneb : ∀ x ∈ pre ++ mergeRun run :: post, x ≠ mergeRun run → x ≠ b := fun x hx hxm hxb =>
    (hout x hx hxm).2 b hbr (congrArg Blk.addr hxb.symm)
  refine ⟨c, h5, hcls, hins, ⟨hs5, ?noAdj, ?covered⟩, hsys.trans hsys5,
    fun y hy => (hk5 y ((inUse_merge hsplit hfree rfl _ L.lists y).2 hy)).trans (hk y hy)⟩
  case noAdj =>
    intro x hx y hy hxy
    by_cases hxm : x = mergeRun run
    · -- the block after the merged one opens `post`
      subst hxm
      rw [hm] at hxy; dsimp only at hxy
      right
      rcases List.mem_append.1 hy with hy | hy
      · have := hpre.bounds y hy; omega
      · rcases List.mem_cons.1 hy with rfl | hy
        · rw [hm] at hxy; dsimp only at hxy; omega
        · obtain ⟨z, t, rfl⟩ := List.exists_cons_of_ne_nil (List.ne_nil_of_mem hy)
          rw [hpost.eq_of_addr_eq hy (List.mem_cons_self _ _) (by rw [hpost.head_addr]; omega)]
          exact hhead z rfl
    by_cases hym : y = mergeRun run
    · -- the block before the merged one closes `pre`
      subst hym
      rw [hm] at hxy; dsimp only at hxy
      left
      rcases List.mem_append.1 hx with hx | hx
      · obtain ⟨t, w, rfl⟩ : ∃ t w, pre = t ++ [w] :=
          ⟨_, _, (List.dropLast_append_getLast (List.ne_nil_of_mem hx)).symm⟩
        rw [hpre.eq_of_end_eq hx (List.mem_append_right _ (List.mem_singleton_self _))
          (by rw [hxy, hpre.last_end])]
        exact hlast w (by simp)
      · rcases List.mem_cons.1 hx with rfl | hx
        · exact absurd rfl hxm
        · have := hpost.bounds x hx; omega
    exact hc.noAdjFree x (hout x hx hxm).1 y (hout y hy hym).1 hxy (hneb x hx hxm) (hneb y hy hym)
  case covered =>
    intro x hx hxf c' hc'
    simp only [mergedLists, Function.update_apply]
    by_cases hxm : x = mergeRun run
    · subst hxm
      rw [hcls] at hc'; cases hc'
      rw [if_pos rfl]; exact List.mem_cons_self _ _
    · have hkeep : x.addr ∈ keepLists L run c' := by
        simp only [keepLists, List.mem_filter, decide_eq_true_eq, List.mem_map, not_exists,
          not_and]
        exact ⟨hc.covered x (hout x hx hxm).1 (hneb x hx hxm) hxf c' hc',
          fun r hr' => (hout x hx hxm).2 r hr'⟩
      split_ifs with hcc
      · subst hcc; exact List.mem_cons_of_mem _ hkeep
      · exact hkeep

end CoalescePre

theorem keepLists_congr {L : Layout} {run : List Blk} {p : Nat → Bool}
    (h : ∀ c, ∀ a ∈ L.lists c, decide (a ∉ run.map Blk.addr) = p a) :
    keepLists L run = fun c => (L.lists c).filter p :=
  funext fun c => List.filter_congr (h c)

/-- Cases 2 to 4 after their unlinks: once the run's blocks are off their lists, the writes of
`write_block` and `set_next_block_pre_alloc_pre_min` give the merged layout. -/
theorem mergedWrites {L : Layout} {pre run post : List Blk} (hsplit : L.blocks = pre ++ run ++ post)
    (hne : run ≠ []) (hfree : ∀ x ∈ run, x.alloc = false) (h32 : 16 < (mergeRun run).size)
    (hpa : (flagsBefore L.blocks (mergeRun run).addr).2 = true) {h2 : Heap}
    (hs2 : Shape h2 ⟨L.blocks, keepLists L run⟩) :
    let h4 := setNextBlockPreAllocPreMin (writeBlock h2 (mergeRun run).addr (mergeRun run).size
      (flagsBefore L.blocks (mergeRun run).addr).1 true false true) (mergeRun run).addr false false
    Shape h4 ⟨pre ++ mergeRun run :: post, keepLists L run⟩ ∧ Kept L h2 h4 ∧ Heap.SameSys h2 h4 := by
  obtain ⟨s, e, hpre, hr, hpost⟩ := Tiles.split3 (hsplit ▸ hs2.tiles)
  have hm := mergeRun_of_tiles hr hne
  rw [hm] at h32 hpa ⊢
  dsimp only at h32 hpa ⊢
  obtain ⟨hshape, hsys, hmem⟩ := hs2.writeFree hsplit hpre hr hpost hne fun x hx c hxc => by
    simp only [keepLists, List.mem_filter, decide_eq_true_eq] at hxc
    exact hxc.2 (List.mem_map_of_mem _ hx)
  dsimp only at hshape hsys hmem
  rw [hpa, show decide (e - s ≠ 16) = true from decide_eq_true (by omega),
    show decide (e - s = 16) = false from decide_eq_false (by omega)] at hshape hsys hmem
  refine ⟨hshape, fun y ⟨x, hx, halloc, h1, h2⟩ => hmem y ?_, hsys⟩
  rw [hsplit] at hx
  rcases List.mem_append.1 hx with hx | hx
  · rcases List.mem_append.1 hx with hx | hx
    · have := hpre.bounds x hx; omega
    · rw [hfree x hx] at halloc; cases halloc
  · have := hpost.bounds x hx; omega

namespace CoalescePre
variable {h : Heap} {L : Layout} {b : Blk} (hc : CoalescePre h L b)
include hc

/-- The block before `b`, if `pre_alloc` says it is free: `coalesce_block` finds it through
`pre_min` when it is a 16-byte block and through its footer otherwise. -/
theorem preBlock_eq {p : Blk} (hp : p ∈ L.blocks) (hpb : p.addr + p.size = b.addr)
    (hpf : p.alloc = false) :
    (if getPreMin h b.addr = true then findMinPrev b.addr else findPrev h b.addr) = p.addr := by
  rw [hc.getPreMin_eq hc.mem, flagsBefore_of_mem hc.tiles hp hpb]
  have := hc.bounds hp
  by_cases h16 : p.size = 16
  · rw [if_pos (decide_eq_true h16), findMinPrev, dsize_eq]; omega
  · rw [if_neg (by simpa using h16)]
    obtain ⟨pm, pa, hw⟩ := hc.footers p hp hpf h16
    rw [findPrev, footerToHeader, findPrevFooter, wsize_eq, show b.addr - 8 = p.addr + p.size - 8 by
      omega, hw, extractSize_pack _ _ _ this.2.2.2 (by have := hc.size_lt hp; omega)]
    omega

theorem pred_cases {pre post : List Blk} (hsplit : L.blocks = pre ++ b :: post)
    (hpre : Tiles h.heapStart pre b.addr) :
    (pre = [] ∧ flagsBefore L.blocks b.addr = (false, true)) ∨
      ∃ t p, pre = t ++ [p] ∧ p.addr + p.size = b.addr ∧
        flagsBefore L.blocks b.addr = (decide (p.size = 16), p.alloc) := by
  rcases List.eq_nil_or_concat pre with rfl | ⟨t, p, rfl⟩
  · refine .inl ⟨rfl, flagsBefore_of_forall fun x hx => ?_⟩
    have := hc.bounds hx; have : h.heapStart = b.addr := hpre; omega
  · rw [List.concat_eq_append] at hpre hsplit ⊢
    have hpb : p.addr + p.size = b.addr := hpre.last_end
    refine .inr ⟨t, p, rfl, hpb, flagsBefore_of_mem hc.tiles ?_ hpb⟩
    rw [hsplit]; simp

theorem succ_cases {pre post : List Blk} (hsplit : L.blocks = pre ++ b :: post)
    (hpost : Tiles (b.addr + b.size) post h.epi) :
    (post = [] ∧ getAlloc h (findNext h b.addr) = true) ∨
      ∃ y t, post = y :: t ∧ y.addr = b.addr + b.size ∧
        getAlloc h (findNext h b.addr) = y.alloc := by
  rw [findNext, hc.getSize_eq hc.mem]
  cases post with
  | nil => exact .inl ⟨rfl, by rw [show b.addr + b.size = h.epi from hpost, hc.getAlloc_epi]⟩
  | cons y t =>
    have hy : y ∈ L.blocks := by rw [hsplit]; simp
    refine .inr ⟨y, t, rfl, hpost.head_addr, ?_⟩
    rw [← hpost.head_addr, hc.getAlloc_eq hy]

theorem pred_alloc {pre post : List Blk} (hsplit : L.blocks = pre ++ b :: post)
    (hpre : Tiles h.heapStart pre b.addr) (hpa : getPreAlloc h b.addr = true) :
    ∀ x ∈ pre.getLast?, x.alloc = true := by
  rw [hc.getPreAlloc_eq hc.mem] at hpa
  rcases hc.pred_cases hsplit hpre with ⟨rfl, -⟩ | ⟨t, p, rfl, -, hfb⟩
  · simp
  · rw [hfb] at hpa; simpa using hpa

theorem pred_free {pre post : List Blk} (hsplit : L.blocks = pre ++ b :: post)
    (hpre : Tiles h.heapStart pre b.addr) (hpa : getPreAlloc h b.addr = false) :
    ∃ t p, pre = t ++ [p] ∧ p.addr + p.size = b.addr ∧ p.alloc = false := by
  rw [hc.getPreAlloc_eq hc.mem] at hpa
  rcases hc.pred_cases hsplit hpre with ⟨rfl, hfb⟩ | ⟨t, p, rfl, hpb, hfb⟩
  · rw [hfb] at hpa; cases hpa
  · rw [hfb] at hpa; exact ⟨t, p, rfl, hpb, hpa⟩

theorem succ_alloc {pre post : List Blk} (hsplit : L.blocks = pre ++ b :: post)
    (hpost : Tiles (b.addr + b.size) post h.epi) (hna : getAlloc h (findNext h b.addr) = true) :
    ∀ y ∈ post.head?, y.alloc = true := by
  rcases hc.succ_cases hsplit hpost with ⟨rfl, -⟩ | ⟨y, t, rfl, -, hy⟩
  · simp
  · rw [hy] at hna; simpa using hna

theorem succ_free {pre post : List Blk} (hsplit : L.blocks = pre ++ b :: post)
    (hpost : Tiles (b.addr + b.size) post h.epi) (hna : getAlloc h (findNext h b.addr) = false) :
    ∃ y u, post = y :: u ∧ y.addr = b.addr + b.size ∧ y.alloc = false := by
  rcases hc.succ_cases hsplit hpost with ⟨rfl, hy⟩ | ⟨y, u, rfl, hya, hy⟩
  · rw [hy] at hna; cases hna
  · rw [hy] at hna; exact ⟨y, u, rfl, hya, hna⟩

theorem pred_pred {t post : List Blk} {p : Blk} (hsplit : L.blocks = t ++ p :: b :: post)
    (hpf : p.alloc = false) :
    (∀ w ∈ t.getLast?, w.alloc = true) ∧ (flagsBefore L.blocks p.addr).2 = true := by
  have ht := Tiles.split (hsplit ▸ hc.tiles : Tiles h.heapStart (t ++ p :: b :: post) h.epi)
  have hpb : p ≠ b := fun hpb => by
    have h1 := ht.2.1.head_addr; have h2 := ht.2.2.1; rw [hpb] at h1 h2; omega
  rcases List.eq_nil_or_concat t with rfl | ⟨t', w, rfl⟩
  · refine ⟨by simp, ?_⟩
    rw [flagsBefore_of_forall fun x hx => ?_]
    have := hc.bounds hx; have : h.heapStart = p.addr := ht.1; omega
  · rw [List.concat_eq_append] at ht hsplit ⊢
    have hw : w ∈ L.blocks := by rw [hsplit]; simp
    have hp : p ∈ L.blocks := by rw [hsplit]; simp
    have hwp : w.addr + w.size = p.addr := ht.1.last_end
    have hwb : w ≠ b := fun hwb => by
      have := ht.2.1.head_addr; have := ht.2.2.1; rw [hwb] at hwp; omega
    have hwa : w.alloc = true := by
      have := hc.noAdjFree w hw p hp hwp hwb hpb; rw [hpf] at this; simpa using this
    refine ⟨by simpa using hwa, ?_⟩
    rw [flagsBefore_of_mem hc.tiles hw hwp, hwa]

theorem succ_succ {pre u : List Blk} {y : Blk} (hsplit : L.blocks = pre ++ b :: y :: u)
    (hyf : y.alloc = false) : ∀ z ∈ u.head?, z.alloc = true := by
  have ht := Tiles.split (hsplit ▸ hc.tiles : Tiles h.heapStart (pre ++ b :: y :: u) h.epi)
  cases u with
  | nil => simp
  | cons z u =>
    have hy : y ∈ L.blocks := by rw [hsplit]; simp
    have hz : z ∈ L.blocks := by rw [hsplit]; simp
    have hya : y.addr = b.addr + b.size := ht.2.1.1
    have hyz : y.addr + y.size = z.addr := by rw [hya]; exact ht.2.1.2.2.2.1.symm
    have := ht.2.1.2.1
    have hyb : y ≠ b := fun hyb => by rw [hyb] at hya; omega
    have hzb : z ≠ b := fun hzb => by rw [hzb] at hyz; omega
    have := hc.noAdjFree y hy z hz hyz hyb hzb
    rw [hyf] at this; simpa using this

theorem unlink_neighbour {x : Blk} (hx : x ∈ L.blocks) (hxb : x ≠ b) (hxf : x.alloc = false) :
    ∃ c h1, x.addr ∈ L.lists c ∧ fixFreeList h x.addr = some h1 ∧
      Shape h1 ⟨L.blocks, fun c' => (L.lists c').filter (· ≠ x.addr)⟩ ∧ Heap.SameSys h h1 ∧
      Kept L h h1 := by
  obtain ⟨c, hcx, -⟩ := findSegListClass_lt (le_of_lt (hc.size_lt hx))
  have hxl := hc.covered x hx hxb hxf c hcx
  obtain ⟨h1, hfix, hs1, hsys1, hk1⟩ := hc.fixFreeList_spec hxl
  refine ⟨c, h1, hxl, hfix, ?_, hsys1, hk1⟩
  rw [← hc.unlink_lists hxl]; exact hs1

/-- Case 2: the block `y` after `b` is free and absorbed, the one before `b` is not. -/
theorem case2 {pre u : List Blk} {y : Blk} (hsplit : L.blocks = pre ++ b :: y :: u)
    (hpa : (flagsBefore L.blocks b.addr).2 = true) (hyf : y.alloc = false) :
    ∃ h4, handleCase2 h b.addr y.addr b.size (getPreMin h b.addr) true = some h4 ∧
      Shape h4 ⟨pre ++ mergeRun [b, y] :: u, keepLists L [b, y]⟩ ∧ Heap.SameSys h h4 ∧
      Kept L h h4 := by
  have ht := Tiles.split (hsplit ▸ hc.tiles : Tiles h.heapStart (pre ++ b :: y :: u) h.epi)
  have hy : y ∈ L.blocks := by rw [hsplit]; simp
  have hyb : y ≠ b := fun hyb => by
    have h1 := ht.2.1.1; have h2 := ht.2.2.1; rw [hyb] at h1; omega
  obtain ⟨c, h1, hyl, hfix, hs1, hsys1, hk1⟩ := hc.unlink_neighbour hy hyb hyf
  have hkeep : keepLists L [b, y] = fun c' => (L.lists c').filter (· ≠ y.addr) :=
    keepLists_congr fun c' a ha => by
      have hab : a ≠ b.addr := fun hab => hc.unlisted c' (hab ▸ ha)
      simp [hab]
  rw [← hkeep] at hs1
  have hm : mergeRun [b, y] = ⟨b.addr, b.size + y.size, false⟩ := by simp [mergeRun]
  have hw := mergedWrites (show L.blocks = pre ++ [b, y] ++ u by rw [hsplit]; simp) (by simp)
    (by simp [hc.free, hyf]) (by rw [hm]; have := ht.2.2.1; have := ht.2.1.2.1; dsimp only; omega)
    (by rw [hm]; exact hpa) hs1
  rw [hm] at hw; dsimp only at hw
  refine ⟨_, ?_, hw.1, hsys1.trans hw.2.2, hk1.trans hw.2.1⟩
  simp only [handleCase2, Option.bind_eq_bind, hfix, Option.some_bind, hs1.getSize_eq hy, hc.getPreMin_eq hc.mem]
  rfl

/-- Case 3: the block `p` before `b` is free and absorbed, the one after `b` is not. -/
theorem case3 {t post : List Blk} {p : Blk} (hsplit : L.blocks = t ++ p :: b :: post)
    (hpf : p.alloc = false) :
    ∃ h4, handleCase3 h p.addr b.size (getPreMin h p.addr) = some h4 ∧
      Shape h4 ⟨t ++ mergeRun [p, b] :: post, keepLists L [p, b]⟩ ∧ Heap.SameSys h h4 ∧
      Kept L h h4 := by
  have ht := Tiles.split (hsplit ▸ hc.tiles : Tiles h.heapStart (t ++ p :: b :: post) h.epi)
  have hp : p ∈ L.blocks := by rw [hsplit]; simp
  have hpb : p ≠ b := fun hpb => by
    have h1 := ht.2.1.head_addr; have h2 := ht.2.2.1; rw [hpb] at h1 h2; omega
  obtain ⟨c, h1, hpl, hfix, hs1, hsys1, hk1⟩ := hc.unlink_neighbour hp hpb hpf
  have hkeep : keepLists L [p, b] = fun c' => (L.lists c').filter (· ≠ p.addr) :=
    keepLists_congr fun c' a ha => by
      have hab : a ≠ b.addr := fun hab => hc.unlisted c' (hab ▸ ha)
      simp [hab]
  rw [← hkeep] at hs1
  have hm : mergeRun [p, b] = ⟨p.addr, p.size + b.size, false⟩ := by simp [mergeRun]
  have hw := mergedWrites (show L.blocks = t ++ [p, b] ++ post by rw [hsplit]; simp) (by simp)
    (by simp [hc.free, hpf]) (by rw [hm]; have := ht.2.2.1; have := hc.bounds hc.mem; dsimp only; omega)
    (by rw [hm]; exact (hc.pred_pred hsplit hpf).2) hs1
  rw [hm] at hw; dsimp only at hw
  refine ⟨_, ?_, hw.1, hsys1.trans hw.2.2, hk1.trans hw.2.1⟩
  simp only [handleCase3, Option.bind_eq_bind, hfix, Option.some_bind, hs1.getSize_eq hp, hc.getPreMin_eq hp,
    Nat.add_comm b.size p.size]
  rfl

/-- Case 4: the blocks `p` before and `y` after `b` are both free and absorbed. -/
theorem case4 {t u : List Blk} {p y : Blk} (hsplit : L.blocks = t ++ p :: b :: y :: u)
    (hpf : p.alloc = false) (hyf : y.alloc = false) :
    ∃ h4, handleCase4 h p.addr y.addr b.size (getPreMin h p.addr) = some h4 ∧
      Shape h4 ⟨t ++ mergeRun [p, b, y] :: u, keepLists L [p, b, y]⟩ ∧ Heap.SameSys h h4 ∧
      Kept L h h4 := by
  have ht := Tiles.split (hsplit ▸ hc.tiles : Tiles h.heapStart (t ++ p :: b :: y :: u) h.epi)
  have hp : p ∈ L.blocks := by rw [hsplit]; simp
  have hy : y ∈ L.blocks := by rw [hsplit]; simp
  have hpb : p ≠ b := fun hpb => by
    have h1 := ht.2.1.head_addr; have h2 := ht.2.2.1; rw [hpb] at h1 h2; omega
  have hyb : y ≠ b := fun hyb => by
    have h1 := ht.2.1.head_addr; have h2 := ht.2.1.2.2.2.1; have h3 := ht.2.1.2.1
    rw [hyb] at h2; omega
  have hyp : y.addr ≠ p.addr := by
    have := ht.2.1.head_addr; have := ht.2.1.2.2.2.1; have := ht.2.2.1; omega
  obtain ⟨c, h1, hpl, hfix, hs1, hsys1, hk1⟩ := hc.unlink_neighbour hp hpb hpf
  obtain ⟨cy, hcy, -⟩ := findSegListClass_lt (le_of_lt (hc.size_lt hy))
  have hyl : y.addr ∈ (L.lists cy).filter (· ≠ p.addr) := by
    simpa [hyp] using hc.covered y hy hyb hyf cy hcy
  obtain ⟨h2, hfix2, hs2, hsys2, hk2⟩ := hs1.fixFreeList_spec hyl
  have hkeep : keepLists L [p, b, y] =
      fun c' => ((L.lists c').filter (· ≠ p.addr)).filter (· ≠ y.addr) := by
    rw [keepLists_congr (p := fun a => decide (a ≠ y.addr) && decide (a ≠ p.addr))]
    · funext c'; rw [List.filter_filter]
    · intro c' a ha
      have hab : a ≠ b.addr := fun hab => hc.unlisted c' (hab ▸ ha)
      simp [hab, Bool.and_comm]
  have hL2 : Layout.unlink ⟨L.blocks, fun c' => (L.lists c').filter (· ≠ p.addr)⟩ cy y.addr =
      ⟨L.blocks, keepLists L [p, b, y]⟩ := by
    rw [hkeep]
    show Layout.mk _ _ = _
    congr 1
    exact hs1.unlink_lists hyl
  rw [hL2] at hs2
  have hm : mergeRun [p, b, y] = ⟨p.addr, p.size + (b.size + y.size), false⟩ := by simp [mergeRun]
  have hw := mergedWrites (show L.blocks = t ++ [p, b, y] ++ u by rw [hsplit]; simp) (by simp)
    (by simp [hc.free, hpf, hyf])
    (by rw [hm]; have := ht.2.2.1; have := (hc.bounds hc.mem).2.2.1; dsimp only; omega)
    (by rw [hm]; exact (hc.pred_pred hsplit hpf).2) hs2
  rw [hm] at hw; dsimp only at hw
  refine ⟨_, ?_, hw.1, (hsys1.trans hsys2).trans hw.2.2, (hk1.trans hk2).trans hw.2.1⟩
  simp only [handleCase4, Option.bind_eq_bind, hfix, hfix2, Option.some_bind, hs2.getSize_eq hp, hs2.getSize_eq hy,
    hc.getPreMin_eq hp, show b.size + (p.size + y.size) = p.size + (b.size + y.size) by omega]
  rfl

/-- `coalesce_block(b)` in all four cases: it returns the first block of the maximal run of free
blocks around `b`; afterwards the heap satisfies the invariant for the layout in which the run
is one free block, with the absorbed neighbours off their lists and the merged block at the
head of the list of its class, and the allocated payloads are kept. -/
theorem coalesceBlock_spec :
    ∃ pre run post c h', MaximalFreeRun L.blocks pre run post ∧ b ∈ run ∧
      findSegListClass (mergeRun run).size = some c ∧
      coalesceBlock h b.addr = some (h', (mergeRun run).addr) ∧
      Inv h' ⟨pre ++ mergeRun run :: post, mergedLists L run c⟩ ∧ Heap.SameSys h h' ∧
      Kept L h h' := by
  obtain ⟨pre0, post0, hsplit, hpre0, hpost0⟩ := hc.split
  have hsize := hc.getSize_eq hc.mem
  -- the push after `handle_case_k` is the same in all four cases
  have fin : ∀ pre run post (h4 : Heap), MaximalFreeRun L.blocks pre run post → b ∈ run →
      Shape h4 ⟨pre ++ mergeRun run :: post, keepLists L run⟩ → Heap.SameSys h h4 →
      Kept L h h4 → ∃ c h', findSegListClass (mergeRun run).size = some c ∧
        ((insertBlockLIFO h4 (mergeRun run).addr).bind fun h' => pure (h', (mergeRun run).addr)) =
          some (h', (mergeRun run).addr) ∧
        Inv h' ⟨pre ++ mergeRun run :: post, mergedLists L run c⟩ ∧ Heap.SameSys h h' ∧
        Kept L h h' := by
    intro pre run post h4 hrun hbr hs4 hsys hk
    obtain ⟨c, h5, hcls, hins, hinv, hsys5, hk5⟩ := hc.finish hrun hbr hs4 hsys hk
    exact ⟨c, h5, hcls, by rw [hins]; rfl, hinv, hsys5, hk5⟩
  have hPA := hc.getPreAlloc_eq hc.mem
  simp only [coalesceBlock, Option.bind_eq_bind, Option.map_eq_map, hsize]
  cases hpa : getPreAlloc h b.addr <;> cases hna : getAlloc h (findNext h b.addr) <;>
    simp only [Bool.not_true, Bool.not_false, Bool.false_eq_true, and_true, and_false, true_and,
      false_and, if_true, if_false]
  · -- case 4: both neighbours free
    obtain ⟨t, p, rfl, hpb, hpf⟩ := hc.pred_free hsplit hpre0 hpa
    obtain ⟨y, u, rfl, hya, hyf⟩ := hc.succ_free hsplit hpost0 hna
    have hsplit' : L.blocks = t ++ p :: b :: y :: u := by rw [hsplit]; simp
    have hp : p ∈ L.blocks := by rw [hsplit']; simp
    have hrun : MaximalFreeRun L.blocks t [p, b, y] u :=
      ⟨by rw [hsplit']; simp, by simp, by simp [hpf, hc.free, hyf],
        (hc.pred_pred hsplit' hpf).1,
        hc.succ_succ (show L.blocks = (t ++ [p]) ++ b :: y :: u by rw [hsplit']; simp) hyf⟩
    obtain ⟨h4, hcase, hs4, hsys, hk⟩ := hc.case4 hsplit' hpf hyf
    rw [hc.preBlock_eq hp hpb hpf, findNext, hsize, ← hya, hcase]
    obtain ⟨c, h', hc', heq, hinv, hsys', hk'⟩ := fin t [p, b, y] u h4 hrun (by simp) hs4 hsys hk
    exact ⟨t, [p, b, y], u, c, h', hrun, by simp, hc', heq, hinv, hsys', hk'⟩
  · -- case 3: the block before `b` free
    obtain ⟨t, p, rfl, hpb, hpf⟩ := hc.pred_free hsplit hpre0 hpa
    have hsplit' : L.blocks = t ++ p :: b :: post0 := by rw [hsplit]; simp
    have hp : p ∈ L.blocks := by rw [hsplit']; simp
    have hrun : MaximalFreeRun L.blocks t [p, b] post0 :=
      ⟨by rw [hsplit']; simp, by simp, by simp [hpf, hc.free], (hc.pred_pred hsplit' hpf).1,
        hc.succ_alloc hsplit hpost0 hna⟩
    obtain ⟨h4, hcase, hs4, hsys, hk⟩ := hc.case3 hsplit' hpf
    rw [hc.preBlock_eq hp hpb hpf, hcase]
    obtain ⟨c, h', hc', heq, hinv, hsys', hk'⟩ := fin t [p, b] post0 h4 hrun (by simp) hs4 hsys hk
    exact ⟨t, [p, b], post0, c, h', hrun, by simp, hc', heq, hinv, hsys', hk'⟩
  · -- case 2: the block after `b` free
    obtain ⟨y, u, rfl, hya, hyf⟩ := hc.succ_free hsplit hpost0 hna
    have hrun : MaximalFreeRun L.blocks pre0 [b, y] u :=
      ⟨by rw [hsplit]; simp, by simp, by simp [hc.free, hyf], hc.pred_alloc hsplit hpre0 hpa,
        hc.succ_succ hsplit hyf⟩
    obtain ⟨h4, hcase, hs4, hsys, hk⟩ := hc.case2 hsplit (hPA.symm.trans hpa) hyf
    rw [findNext, hsize, ← hya, hcase]
    obtain ⟨c, h', hc', heq, hinv, hsys', hk'⟩ := fin pre0 [b, y] u h4 hrun (by simp) hs4 hsys hk
    exact ⟨pre0, [b, y], u, c, h', hrun, by simp, hc', heq, hinv, hsys', hk'⟩
  · -- case 1: no free neighbour
    have hrun : MaximalFreeRun L.blocks pre0 [b] post0 :=
      ⟨by rw [hsplit]; simp, by simp, by simp [hc.free], hc.pred_alloc hsplit hpre0 hpa,
        hc.succ_alloc hsplit hpost0 hna⟩
    have hm : mergeRun [b] = b := by
      cases b; simp only [mergeRun, List.headD_cons, List.map_cons, List.map_nil, List.sum_cons,
        List.sum_nil, Nat.add_zero, Blk.mk.injEq, true_and]; exact hc.free.symm
    have hkeep : keepLists L [b] = L.lists := funext fun c => List.filter_eq_self.2 fun a ha => by
      simpa using fun (hab : a = b.addr) => hc.unlisted c (hab ▸ ha)
    have hs : Shape h ⟨pre0 ++ mergeRun [b] :: post0, keepLists L [b]⟩ := by
      rw [hm, hkeep, ← hsplit]; exact hc.toShape
    rw [hc.handleCase1_eq hc.mem hc.free]
    obtain ⟨c, h', hc', heq, hinv, hsys', hk'⟩ := fin pre0 [b] post0 h hrun (by simp) hs
      (Heap.SameSys.refl h) (Kept.refl L h)
    exact ⟨pre0, [b], post0, c, h', hrun, by simp, hc', heq, hinv, hsys', hk'⟩

end CoalescePre

/-! ## Four-case coalescing -/

/-- Four-case coalescing is correct. From the state `free`, `split_block` and `extend_heap`
leave (`CoalescePre`), `coalesce_block(b)` returns the block that spans the maximal run of free
blocks around `b`; afterwards the heap satisfies the invariant for the layout with the run
merged, its free lists are those of `L` without the absorbed neighbours and with the merged
block at the head of the list of its class, its header and footer carry the summed size and the
flags the invariant asks, and the next header has `pre_alloc` clear and `pre_min` set exactly
for a 16-byte result. -/
theorem coalesceBlock_merges_run {h : Heap} {L : Layout} {b : Blk} (hc : CoalescePre h L b) :
    ∃ pre run post c h', MaximalFreeRun L.blocks pre run post ∧ b ∈ run ∧
      coalesceBlock h b.addr = some (h', (mergeRun run).addr) ∧
      findSegListClass (mergeRun run).size = some c ∧
      Inv h' ⟨pre ++ mergeRun run :: post, mergedLists L run c⟩ ∧
      getPreAlloc h' ((mergeRun run).addr + (mergeRun run).size) = false ∧
      getPreMin h' ((mergeRun run).addr + (mergeRun run).size) =
        decide ((mergeRun run).size = 16) := by
  obtain ⟨pre, run, post, c, h', hrun, hb, hcls, heq, hinv, -, -⟩ := hc.coalesceBlock_spec
  have hflags := hinv.toShape.flags_after (List.mem_append_right pre (List.mem_cons_self _ post))
  exact ⟨pre, run, post, c, h', hrun, hb, heq, hcls, hinv, hflags⟩

/-- Two free 32-byte blocks: `8`, on no list, and `40`, on list 1. -/
def twoFree : Heap where
  mem := fun x => if x = 0 then 3 else if x = 8 ∨ x = 32 then 34
    else if x = 40 ∨ x = 64 then 32 else if x = 72 then 1 else 0
  heapStart := 8
  segList := fun c => if c = 1 then 40 else 0
  lo := 0
  brk := 80
  sbrkOk := fun _ => false
  sbrkCalls := 1

def twoFreeLayout : Layout := ⟨[⟨8, 32, false⟩, ⟨40, 32, false⟩], fun c => if c = 1 then [40] else []⟩

theorem twoFree_pre : CoalescePre twoFree twoFreeLayout ⟨8, 32, false⟩ where
  lo := rfl
  start := rfl
  brk := by decide
  tiles := ⟨rfl, by decide, rfl, rfl, by decide, rfl, rfl⟩
  prologue := by decide
  headers := by decide
  epilogue := by decide
  footers := by decide
  lists := {
    nodup := fun c => by by_cases hc : c = 1 <;> simp [twoFreeLayout, hc]
    bound := fun c hc => by simp only [MAX_SEG_LIST_LENGTH_eq] at hc; simp [twoFreeLayout]; omega
    free := fun c a ha => by
      by_cases hc : c = 1 <;> simp [twoFreeLayout, hc] at ha
      subst_vars; exact ⟨⟨40, 32, false⟩, by simp [twoFreeLayout], rfl, rfl, by decide⟩
    head := by decide
    next := fun c a ha => by
      by_cases hc : c = 1 <;> simp [twoFreeLayout, hc] at ha ⊢
      subst_vars; decide
    prev := fun c _ a ha => by
      by_cases hc : c = 1 <;> simp [twoFreeLayout, hc] at ha ⊢
      subst_vars; decide }
  mem := by simp [twoFreeLayout]
  free := rfl
  unlisted := fun c => by by_cases hc : c = 1 <;> simp [twoFreeLayout, hc]
  covered := fun x hx hxb _ c hc => by
    simp [twoFreeLayout] at hx
    rcases hx with rfl | rfl
    · exact absurd rfl hxb
    · have : c = 1 := Option.some.inj (hc.symm.trans (by decide : findSegListClass 32 = some 1))
      subst this; simp [twoFreeLayout]
  noAdjFree := by decide

theorem coalesceBlock_merges_run_twoFree : CoalescePre twoFree twoFreeLayout ⟨8, 32, false⟩ ∧
    ∃ pre run post c h', MaximalFreeRun twoFreeLayout.blocks pre run post ∧
      ⟨8, 32, false⟩ ∈ run ∧ coalesceBlock twoFree 8 = some (h', (mergeRun run).addr) ∧
      findSegListClass (mergeRun run).size = some c ∧
      Inv h' ⟨pre ++ mergeRun run :: post, mergedLists twoFreeLayout run c⟩ ∧
      getPreAlloc h' ((mergeRun run).addr + (mergeRun run).size) = false ∧
      getPreMin h' ((mergeRun run).addr + (mergeRun run).size) =
        decide ((mergeRun run).size = 16) :=
  ⟨twoFree_pre, coalesceBlock_merges_run twoFree_pre⟩

end SystemsLabs.Malloc
