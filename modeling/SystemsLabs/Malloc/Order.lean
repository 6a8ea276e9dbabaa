import SystemsLabs.Malloc.Check

/-!
# Freeing in any order

What a heap shows is read here by two walks, as a debugger reads it: `implicitList`, the address
and header word of each block from `heap_start` up to the epilogue, and `bucket`, the blocks of
one `seg_list` bucket along their `next` words. On a heap that satisfies the invariant they read
the layout back: the headers of `L.blocks` (`Shape.implicitList_eq`) and the lists `L.lists`
(`Shape.bucket_eq`).

The layout is fixed by its allocated blocks. A tiling of `[heap_start, epilogue)` with no two
adjacent free blocks is the one whose free blocks are the maximal gaps between the allocated ones
(`Tiles.eq_of_allocated`), the headers follow from the tiling, and the buckets hold exactly the
free blocks of their class. So two heaps that satisfy the invariant over one region with the same
allocated blocks show the same implicit list and the same set of blocks in each bucket
(`Inv.canonical`): only the order inside a bucket may differ.

`free` of an allocated block removes just that block from the allocated ones
(`Inv.free_spec`), so freeing a list of blocks one after the other removes the set they form,
whatever their order (`Inv.freeAll_spec`). `free_order_independent` puts the two together: the
order of two `free`s does not show, and freeing a run of adjacent allocated blocks in any order
leaves one free block, exactly the run and its free neighbours, in the bucket of its class.
-/

namespace SystemsLabs.Malloc

/-! ## The implicit list and the buckets, as the heap shows them -/

/-- The blocks from `block` on, as a walk along the headers reads them: each header's address
and word, up to and including the epilogue, whose size is `0`. -/
def blockWalk (h : Heap) : Nat → Nat → List (Nat × Nat)
  | 0, _ => []
  | fuel + 1, block =>
    (block, h.word block) ::
      if getSize h block = 0 then [] else blockWalk h fuel (findNext h block)

/-- The implicit block list, from `heap_start`. -/
def implicitList (h : Heap) : List (Nat × Nat) := blockWalk h listFuel h.heapStart

/-- The blocks of a free list from `block` on, along the `next` words up to `NULL`. -/
def listWalk (h : Heap) : Nat → Nat → List Nat
  | 0, _ => []
  | fuel + 1, block => if block = 0 then [] else block :: listWalk h fuel (h.word (nextOf block))

/-- The blocks of the bucket `seg_list[c]`. -/
def bucket (h : Heap) (c : Nat) : List Nat := listWalk h listFuel (h.segList c)

/-- `free` of each pointer of `ptrs`, one after the other. -/
def freeAll (h : Heap) (ptrs : List Nat) : Option Heap := ptrs.foldlM free h

/-- Along blocks that tile `[a, e)` and whose headers carry their sizes, with an epilogue of
size `0` at `e`, the walk from `a` reads each header and then the epilogue. -/
theorem blockWalk_tiles (h : Heap) {e : Nat} (he : getSize h e = 0) :
    ∀ (bs : List Blk) (a fuel : Nat), Tiles a bs e → (∀ b ∈ bs, getSize h b.addr = b.size) →
      bs.length < fuel →
      blockWalk h fuel a = bs.map (fun b => (b.addr, h.word b.addr)) ++ [(e, h.word e)]
  | _, _, 0, _, _, hlen => absurd hlen (Nat.not_lt_zero _)
  | [], a, fuel + 1, ht, _, _ => by
    have hae : a = e := ht
    subst hae
    rw [blockWalk, if_pos he]; rfl
  | b :: bs, _, fuel + 1, ht, hsz, hlen => by
    obtain ⟨rfl, h16, -, ht⟩ := ht
    have hb := hsz b (List.mem_cons_self _ _)
    rw [blockWalk, if_neg (by omega), findNext, hb,
      blockWalk_tiles h he bs _ fuel ht (fun x hx => hsz x (List.mem_cons_of_mem _ hx))
        (by simpa using hlen)]
    rfl

theorem listWalk_linked (h : Heap) :
    ∀ (l : List Nat) (fuel : Nat), Linked h l → l.length < fuel → listWalk h fuel (l.headD 0) = l
  | _, 0, _, hlen => absurd hlen (Nat.not_lt_zero _)
  | [], fuel + 1, _, _ => rfl
  | y :: ys, fuel + 1, hl, hlen => by
    have hy0 : y ≠ 0 := fun h => hl.2.1 (h ▸ List.mem_cons_self _ _)
    rw [List.headD_cons, listWalk, if_neg hy0, hl.next_head,
      listWalk_linked h ys fuel hl.tail (by simpa using hlen)]

namespace Shape
variable {h : Heap} {L : Layout} (hs : Shape h L)
include hs

theorem implicitList_eq : implicitList h =
    L.blocks.map (fun b => (b.addr, headerOf L.blocks b)) ++ [(h.epi, epilogueOf L.blocks h.epi)] := by
  have hlen : L.blocks.length < listFuel := by
    have := Tiles.length_le hs.tiles; have := hs.epi_lt; unfold listFuel; omega
  rw [implicitList, blockWalk_tiles h hs.getSize_epi L.blocks _ _ hs.tiles
    (fun b hb => hs.getSize_eq hb) hlen, hs.epilogue]
  exact congrArg (· ++ _) (List.map_congr_left fun b hb => by rw [hs.headers b hb])

theorem bucket_eq {c : Nat} (hc : c < MAX_SEG_LIST_LENGTH) : bucket h c = L.lists c := by
  rw [bucket, hs.lists.head c hc]
  exact listWalk_linked h _ _ (hs.linked c) (hs.length_lt c)

end Shape

/-- The buckets hold exactly the free blocks, each in the bucket of its class. -/
theorem Inv.mem_lists_iff {h : Heap} {L : Layout} (hi : Inv h L) {c x : Nat} :
    x ∈ L.lists c ↔
      ∃ b ∈ L.blocks, b.addr = x ∧ b.alloc = false ∧ findSegListClass b.size = some c :=
  ⟨hi.toShape.listed, fun ⟨b, hb, hbx, hfree, hcls⟩ => hbx ▸ hi.covered b hb hfree c hcls⟩

/-! ## The layout is fixed by its allocated blocks -/

theorem Blk.eq_of {x y : Blk} (ha : x.addr = y.addr) (hs : x.size = y.size)
    (hal : x.alloc = y.alloc) : x = y := by
  cases x; cases y; cases ha; cases hs; cases hal; rfl

namespace Tiles
variable {a e : Nat}

theorem eq_head {b x : Blk} {bs : List Blk} (ht : Tiles a (b :: bs) e) (hx : x ∈ b :: bs)
    (hxa : x.addr = a) : x = b :=
  ht.eq_of_addr_eq hx (List.mem_cons_self _ _) (hxa.trans ht.1.symm)

theorem ne_head {b x : Blk} {bs : List Blk} (ht : Tiles a (b :: bs) e) (hx : x ∈ bs) : x ≠ b :=
  fun hxb => by
    have := (ht.2.2.2.bounds x hx).1; rw [hxb] at this; have := ht.1; have := ht.2.1; omega

theorem size_le_of_free {b b' : Blk} {bs bs' : List Blk} (ht : Tiles a (b :: bs) e)
    (ht' : Tiles a (b' :: bs') e)
    (hadj : ∀ x ∈ b :: bs, ∀ y ∈ b :: bs, x.addr + x.size = y.addr → x.alloc ∨ y.alloc)
    (hfree : b.alloc = false) (hfree' : b'.alloc = false)
    (hsub : ∀ x ∈ b :: bs, x.alloc = true → x ∈ b' :: bs') : b'.size ≤ b.size := by
  have hb'a : b'.addr = a := ht'.1
  obtain ⟨rfl, -, -, ht₁⟩ := ht
  by_contra hlt
  cases bs with
  | nil =>
    have : b.addr + b.size = e := ht₁
    have := (ht'.bounds b' (List.mem_cons_self _ _)).2.1; omega
  | cons c cs =>
    have hc : b.addr + b.size = c.addr := ht₁.1.symm
    have hcmem : c ∈ b :: c :: cs := List.mem_cons_of_mem _ (List.mem_cons_self _ _)
    have hcal : c.alloc = true := by
      simpa [hfree] using hadj b (List.mem_cons_self _ _) c hcmem hc
    rcases List.mem_cons.1 (hsub c hcmem hcal) with rfl | hc'
    · rw [hfree'] at hcal; cases hcal
    · have := (ht'.2.2.2.bounds c hc').1; omega

/-- Two tilings of `[a, e)` with no two adjacent free blocks and the same allocated blocks are
the same tiling. -/
theorem eq_of_allocated : ∀ {a : Nat} {bs bs' : List Blk}, Tiles a bs e → Tiles a bs' e →
    (∀ x ∈ bs, ∀ y ∈ bs, x.addr + x.size = y.addr → x.alloc ∨ y.alloc) →
    (∀ x ∈ bs', ∀ y ∈ bs', x.addr + x.size = y.addr → x.alloc ∨ y.alloc) →
    (∀ x, x ∈ bs ∧ x.alloc = true ↔ x ∈ bs' ∧ x.alloc = true) → bs = bs'
  | _, [], [], _, _, _, _, _ => rfl
  | a, [], b' :: _, ht, ht', _, _, _ => by
    have : a = e := ht; have := ht'.2.2.2.le; have := ht'.1; have := ht'.2.1; omega
  | a, b :: _, [], ht, ht', _, _, _ => by
    have : a = e := ht'; have := ht.2.2.2.le; have := ht.1; have := ht.2.1; omega
  | a, b :: bs, b' :: bs', ht, ht', hadj, hadj', hal => by
    have hbb : b = b' := by
      cases hb : b.alloc
      · cases hb' : b'.alloc
        · exact Blk.eq_of (ht.1.trans ht'.1.symm) (le_antisymm
            (size_le_of_free ht' ht hadj' hb' hb fun x hx hxa => ((hal x).2 ⟨hx, hxa⟩).1)
            (size_le_of_free ht ht' hadj hb hb' fun x hx hxa => ((hal x).1 ⟨hx, hxa⟩).1))
            (hb.trans hb'.symm)
        · exact (ht.eq_head ((hal b').2 ⟨List.mem_cons_self _ _, hb'⟩).1 ht'.1).symm
      · exact ht'.eq_head ((hal b).1 ⟨List.mem_cons_self _ _, hb⟩).1 ht.1
    subst hbb
    have htail : ∀ {l l' : List Blk}, Tiles a (b :: l) e → Tiles a (b :: l') e →
        (∀ x, x ∈ b :: l ∧ x.alloc = true → x ∈ b :: l') → ∀ x ∈ l, x.alloc = true → x ∈ l' :=
      fun ht ht' hsub x hx hxa =>
        (List.mem_cons.1 (hsub x ⟨List.mem_cons_of_mem _ hx, hxa⟩)).resolve_left (ht.ne_head hx)
    rw [eq_of_allocated ht.2.2.2 ht'.2.2.2
      (fun x hx y hy => hadj x (List.mem_cons_of_mem _ hx) y (List.mem_cons_of_mem _ hy))
      (fun x hx y hy => hadj' x (List.mem_cons_of_mem _ hx) y (List.mem_cons_of_mem _ hy))
      fun x => ⟨fun ⟨hx, hxa⟩ => ⟨htail ht ht' (fun x hx => ((hal x).1 hx).1) x hx hxa, hxa⟩,
        fun ⟨hx, hxa⟩ => ⟨htail ht' ht (fun x hx => ((hal x).2 hx).1) x hx hxa, hxa⟩⟩]

end Tiles

/-- Two heaps that satisfy the invariant over one region with the same allocated blocks have the
same blocks, the same implicit list and the same set of blocks in each bucket. -/
theorem Inv.canonical {h₁ h₂ : Heap} {L₁ L₂ : Layout} (hi₁ : Inv h₁ L₁) (hi₂ : Inv h₂ L₂)
    (hstart : h₁.heapStart = h₂.heapStart) (hbrk : h₁.brk = h₂.brk)
    (hal : ∀ x, Allocated L₁ x ↔ Allocated L₂ x) :
    L₁.blocks = L₂.blocks ∧ implicitList h₁ = implicitList h₂ ∧
      ∀ c < MAX_SEG_LIST_LENGTH, (bucket h₁ c).Perm (bucket h₂ c) := by
  have hepi : h₁.epi = h₂.epi := by unfold Heap.epi; rw [hbrk]
  have hbl : L₁.blocks = L₂.blocks := Tiles.eq_of_allocated hi₁.tiles
    (by rw [hstart, hepi]; exact hi₂.tiles) hi₁.noAdjFree hi₂.noAdjFree hal
  refine ⟨hbl, ?_, fun c hc => ?_⟩
  · rw [hi₁.toShape.implicitList_eq, hi₂.toShape.implicitList_eq, hbl, hepi]
  · rw [hi₁.toShape.bucket_eq hc, hi₂.toShape.bucket_eq hc]
    exact (List.perm_ext_iff_of_nodup (hi₁.lists.nodup c) (hi₂.lists.nodup c)).2 fun x => by
      rw [hi₁.mem_lists_iff, hi₂.mem_lists_iff, hbl]

/-! ## Freeing a set of blocks -/

/-- Freeing distinct allocated blocks one after the other returns, and leaves a heap that
satisfies the invariant, over the same region, with just those blocks no longer allocated. -/
theorem Inv.freeAll_spec : ∀ {h : Heap} {L : Layout} (S : List Blk), Inv h L → S.Nodup →
    (∀ x ∈ S, Allocated L x) →
    ∃ h' L', freeAll h (S.map fun b => b.addr + 8) = some h' ∧ Inv h' L' ∧ Heap.SameSys h h' ∧
      ∀ x, Allocated L' x ↔ Allocated L x ∧ x ∉ S
  | h, L, [], hi, _, _ => ⟨h, L, rfl, hi, .refl h, fun x => by simp⟩
  | h, L, b :: S, hi, hnd, hS => by
    obtain ⟨hb, hbal⟩ := hS b (List.mem_cons_self _ _)
    obtain ⟨h₁, L₁, hf, hi₁, hsys₁, hal₁, -⟩ := hi.free_spec hb hbal
    obtain ⟨hbS, hnd'⟩ := List.nodup_cons.1 hnd
    obtain ⟨h', L', hf', hi', hsys', hal'⟩ := Inv.freeAll_spec S hi₁ hnd' fun x hx =>
      (hal₁ x).2 ⟨hS x (List.mem_cons_of_mem _ hx), fun hxb => hbS (hxb ▸ hx)⟩
    refine ⟨h', L', ?_, hi', hsys₁.trans hsys', fun x => ?_⟩
    · rw [freeAll, List.map_cons, List.foldlM_cons, hf]; exact hf'
    · rw [hal', hal₁]; simp only [List.mem_cons, not_or, and_assoc, ne_eq]

/-- Freeing the same set of allocated blocks in two orders shows the same implicit list and the
same set of blocks in each bucket. -/
theorem Inv.freeAll_perm {h : Heap} {L : Layout} (hi : Inv h L) {S S' : List Blk}
    (hperm : S.Perm S') (hnd : S.Nodup) (hS : ∀ x ∈ S, Allocated L x) :
    ∃ h₁ h₂, freeAll h (S.map fun b => b.addr + 8) = some h₁ ∧
      freeAll h (S'.map fun b => b.addr + 8) = some h₂ ∧ implicitList h₁ = implicitList h₂ ∧
      ∀ c < MAX_SEG_LIST_LENGTH, (bucket h₁ c).Perm (bucket h₂ c) := by
  obtain ⟨h₁, L₁, hf₁, hi₁, hsys₁, hal₁⟩ := hi.freeAll_spec S hnd hS
  obtain ⟨h₂, L₂, hf₂, hi₂, hsys₂, hal₂⟩ :=
    hi.freeAll_spec S' (hperm.nodup_iff.1 hnd) fun x hx => hS x (hperm.mem_iff.2 hx)
  obtain ⟨-, himp, hbuck⟩ := hi₁.canonical hi₂ (hsys₁.heapStart.trans hsys₂.heapStart.symm)
    (hsys₁.brk.trans hsys₂.brk.symm) fun x => by rw [hal₁, hal₂, hperm.mem_iff]
  exact ⟨h₁, h₂, hf₁, hf₂, himp, hbuck⟩

/-! ## Freeing a run of adjacent blocks -/

def Blk.Holds (b : Blk) (s : Nat) : Prop := b.addr ≤ s ∧ s < b.addr + b.size

def Blk.Meets (x y : Blk) : Prop := x.addr < y.addr + y.size ∧ y.addr < x.addr + x.size

def Blk.Within (x y : Blk) : Prop := y.addr ≤ x.addr ∧ x.addr + x.size ≤ y.addr + y.size

/-- `z` is a block of `run` or a free block next to one: what freeing `run` merges. -/
def Merged (run : List Blk) (z : Blk) : Prop :=
  z ∈ run ∨ z.alloc = false ∧ ∃ x ∈ run, z.addr + z.size = x.addr ∨ x.addr + x.size = z.addr

instance (b : Blk) (s : Nat) : Decidable (b.Holds s) := inferInstanceAs (Decidable (_ ∧ _))

instance (x y : Blk) : Decidable (x.Meets y) := inferInstanceAs (Decidable (_ ∧ _))

instance (x y : Blk) : Decidable (x.Within y) := inferInstanceAs (Decidable (_ ∧ _))

instance (run : List Blk) (z : Blk) : Decidable (Merged run z) :=
  inferInstanceAs (Decidable (z ∈ run ∨ z.alloc = false ∧
    ∃ x ∈ run, z.addr + z.size = x.addr ∨ x.addr + x.size = z.addr))

example : Merged [⟨24, 32, true⟩] ⟨56, 4064, false⟩ ∧ ¬ Merged [⟨24, 32, true⟩] ⟨88, 16, false⟩ := by
  decide

namespace Tiles
variable {a e : Nat} {bs : List Blk}

theorem cover (ht : Tiles a bs e) {s : Nat} (has : a ≤ s) (hse : s < e) : ∃ b ∈ bs, b.Holds s := by
  induction bs generalizing a with
  | nil => have : a = e := ht; omega
  | cons b bs ih =>
    obtain ⟨rfl, -, -, ht'⟩ := ht
    by_cases hs : s < b.addr + b.size
    · exact ⟨b, List.mem_cons_self _ _, has, hs⟩
    · obtain ⟨x, hx, hxs⟩ := ih ht' (by omega)
      exact ⟨x, List.mem_cons_of_mem _ hx, hxs⟩

theorem eq_of_holds (ht : Tiles a bs e) {x y : Blk} (hx : x ∈ bs) (hy : y ∈ bs) {s : Nat}
    (hxs : x.Holds s) (hys : y.Holds s) : x = y :=
  ht.eq_of_slot_eq hx hy (s - x.addr) (s - y.addr) (by unfold Blk.Holds at hxs; omega)
    (by unfold Blk.Holds at hys; omega) (by unfold Blk.Holds at hxs hys; omega)

theorem nodup (ht : Tiles a bs e) : bs.Nodup :=
  ht.pairwise.imp_of_mem fun hx _ hxy heq => by
    subst heq; have := (ht.bounds _ hx).2.2.1; omega

end Tiles

/-- A free block of a heap that satisfies the invariant and holds a byte of `[u, v)`, where no
allocated block holds a byte, spans `[u, v)`: the blocks next to it are allocated. -/
theorem Inv.span {h : Heap} {L : Layout} (hi : Inv h L) {y : Blk} (hy : y ∈ L.blocks)
    (hfree : y.alloc = false) {u t v : Nat} (hu : h.heapStart ≤ u) (hv : v ≤ h.epi)
    (hut : u ≤ t) (htv : t < v) (hyt : y.Holds t)
    (hna : ∀ s, u ≤ s → s < v → ∀ z ∈ L.blocks, z.alloc = true → ¬ z.Holds s) :
    y.addr ≤ u ∧ v ≤ y.addr + y.size := by
  unfold Blk.Holds at hyt
  constructor
  · by_contra hlt
    rcases hi.tiles.prev_mem y hy with hya | ⟨w, hw, hwy⟩
    · omega
    have hwal : w.alloc = true := by simpa [hfree] using hi.noAdjFree w hw y hy hwy
    have := (hi.bounds hw).2.2.1
    exact hna (y.addr - 1) (by omega) (by omega) w hw hwal ⟨by omega, by omega⟩
  · by_contra hlt
    rcases hi.tiles.next_mem y hy with hye | ⟨w, hw, hwy⟩
    · omega
    have hwal : w.alloc = true := by simpa [hfree] using hi.noAdjFree y hy w hw hwy.symm
    have := (hi.bounds hw).2.2.1
    exact hna (y.addr + y.size) (by omega) (by omega) w hw hwal ⟨by omega, by omega⟩

/-- `h'`, laid out as `L'`, is `h`, laid out as `L`, after freeing the allocated blocks `run`,
which lie one after the other over `[m₁, m₂)`. -/
structure FreedRun (h : Heap) (L : Layout) (h' : Heap) (L' : Layout) (run : List Blk)
    (m₁ m₂ : Nat) : Prop where
  inv : Inv h L
  inv' : Inv h' L'
  start : h'.heapStart = h.heapStart
  epi : h'.epi = h.epi
  tiles : Tiles m₁ run m₂
  start_le : h.heapStart ≤ m₁
  le_epi : m₂ ≤ h.epi
  ne : run ≠ []
  mem : ∀ x ∈ run, x ∈ L.blocks
  alloc : ∀ x ∈ run, x.alloc = true
  allocated : ∀ x, Allocated L' x ↔ Allocated L x ∧ x ∉ run

namespace FreedRun
variable {h h' : Heap} {L L' : Layout} {run : List Blk} {m₁ m₂ : Nat}
  (hr : FreedRun h L h' L' run m₁ m₂)
include hr

theorem bounds : h.heapStart ≤ m₁ ∧ m₁ + 16 ≤ m₂ ∧ m₂ ≤ h.epi :=
  ⟨hr.start_le, hr.tiles.add_le_of_ne_nil hr.ne, hr.le_epi⟩

theorem not_holds {z w : Blk} (hz : z ∈ L'.blocks) (hza : z.alloc = true) (hw : w ∈ L.blocks)
    (hwr : w.alloc = false ∨ w ∈ run) {s : Nat} (hws : w.Holds s) : ¬ z.Holds s := fun hzs => by
  obtain ⟨⟨hzL, -⟩, hzr⟩ := (hr.allocated z).1 ⟨hz, hza⟩
  obtain rfl := hr.inv.tiles.eq_of_holds hzL hw hzs hws
  rcases hwr with hwf | hwr
  · rw [hza] at hwf; cases hwf
  · exact hzr hwr

theorem run_not_holds {s : Nat} (h1 : m₁ ≤ s) (h2 : s < m₂) {z : Blk} (hz : z ∈ L'.blocks)
    (hza : z.alloc = true) : ¬ z.Holds s := by
  obtain ⟨r, hr', hrs⟩ := hr.tiles.cover h1 h2
  exact hr.not_holds hz hza (hr.mem r hr') (.inr hr') hrs

theorem first : ∃ x ∈ run, x.addr = m₁ := by
  obtain ⟨x, t, hxt⟩ := List.exists_cons_of_ne_nil hr.ne
  exact ⟨x, hxt ▸ List.mem_cons_self _ _, (hxt ▸ hr.tiles : Tiles m₁ (x :: t) m₂).1⟩

theorem last : ∃ x ∈ run, x.addr + x.size = m₂ :=
  ⟨run.getLast hr.ne, List.getLast_mem hr.ne,
    Tiles.last_end (l := run.dropLast) (by rw [List.dropLast_append_getLast hr.ne]; exact hr.tiles)⟩

theorem exists_free : ∃ y ∈ L'.blocks, y.alloc = false ∧ y.Holds m₁ := by
  obtain ⟨hs, h12, he⟩ := hr.bounds
  obtain ⟨y, hy, hym⟩ := hr.inv'.tiles.cover (s := m₁) (by rw [hr.start]; exact hs)
    (by rw [hr.epi]; omega)
  refine ⟨y, hy, ?_, hym⟩
  cases hya : y.alloc
  · rfl
  · exact absurd hym (hr.run_not_holds le_rfl (by omega) hy hya)

theorem span {y : Blk} (hy : y ∈ L'.blocks) (hyf : y.alloc = false) {u t v : Nat}
    (hu : h.heapStart ≤ u) (hv : v ≤ h.epi) (hut : u ≤ t) (htv : t < v) (hyt : y.Holds t)
    (hna : ∀ s, u ≤ s → s < v → ∀ w ∈ L'.blocks, w.alloc = true → ¬ w.Holds s) :
    y.addr ≤ u ∧ v ≤ y.addr + y.size :=
  hr.inv'.span hy hyf (by rw [hr.start]; exact hu) (by rw [hr.epi]; exact hv) hut htv hyt hna

theorem span_run {y : Blk} (hy : y ∈ L'.blocks) (hyf : y.alloc = false) (hym : y.Holds m₁) :
    y.addr ≤ m₁ ∧ m₂ ≤ y.addr + y.size := by
  obtain ⟨hs, h12, he⟩ := hr.bounds
  exact hr.span hy hyf hs he le_rfl (by omega) hym fun s h1 h2 w hw => hr.run_not_holds h1 h2 hw

theorem free_outside {z : Blk} (hz : z ∈ L.blocks) (hzf : z.alloc = false) :
    z.addr + z.size ≤ m₁ ∨ m₂ ≤ z.addr := by
  by_contra hc
  have := (hr.inv.bounds hz).2.2.1; have := hr.bounds
  obtain ⟨r, hr', hrs⟩ := hr.tiles.cover (s := max z.addr m₁) (by omega) (by omega)
  have hzr := hr.inv.tiles.eq_of_holds hz (hr.mem r hr') ⟨by omega, by omega⟩ hrs
  rw [hzr, hr.alloc r hr'] at hzf; cases hzf

theorem neighbour {z x : Blk} (hz : z ∈ L.blocks) (hzf : z.alloc = false) (hx : x ∈ run)
    (hzx : z.addr + z.size = x.addr ∨ x.addr + x.size = z.addr) :
    z.addr + z.size = m₁ ∨ z.addr = m₂ := by
  have := hr.tiles.bounds x hx; have := (hr.inv.bounds hz).2.2.1
  rcases hr.free_outside hz hzf with h | h <;> omega

theorem within {y : Blk} (hy : y ∈ L'.blocks) (hyf : y.alloc = false) (hym : y.Holds m₁)
    {z : Blk} (hz : z ∈ L.blocks) (hzm : Merged run z) : z.Within y := by
  obtain ⟨hs, h12, he⟩ := hr.bounds
  have hrun := hr.span_run hy hyf hym
  rcases hzm with hzr | ⟨hzf, x, hx, hzx⟩
  · have := hr.tiles.bounds z hzr; exact ⟨by omega, by omega⟩
  have hzb := hr.inv.bounds hz
  rcases hr.neighbour hz hzf hx hzx with hze | hza
  · -- a free block before the run: `y` spans it and the run
    have := hr.span hy hyf hzb.1 he (by omega) (by omega) hym fun s h1 h2 w hw hwa => by
      by_cases hsm : s < m₁
      · exact hr.not_holds hw hwa hz (.inl hzf) ⟨h1, by omega⟩
      · exact hr.run_not_holds (by omega) h2 hw hwa
    exact ⟨this.1, by omega⟩
  · -- a free block after the run
    have := hr.span hy hyf hs hzb.2.1 le_rfl (by omega) hym fun s h1 h2 w hw hwa => by
      by_cases hsm : s < m₂
      · exact hr.run_not_holds h1 hsm hw hwa
      · exact hr.not_holds hw hwa hz (.inl hzf) ⟨by omega, h2⟩
    exact ⟨by omega, this.2⟩

theorem merged_of_meets {y : Blk} (hy : y ∈ L'.blocks) (hyf : y.alloc = false)
    (hym : y.Holds m₁) {z : Blk} (hz : z ∈ L.blocks) (hzy : z.Meets y) : Merged run z := by
  obtain ⟨hs, h12, he⟩ := hr.bounds
  have hrun := hr.span_run hy hyf hym
  have hzs := (hr.inv.bounds hz).2.2.1
  unfold Blk.Meets at hzy
  -- an allocated block of `L` outside the run holds no byte of `y`
  have hcut : ∀ w ∈ L.blocks, w.alloc = true → w ∉ run → ∀ s, w.Holds s → ¬ y.Holds s :=
    fun w hw hwa hwr s hws hys => by
      have hw' := ((hr.allocated w).2 ⟨⟨hw, hwa⟩, hwr⟩).1
      rw [hr.inv'.tiles.eq_of_holds hw' hy hws hys, hyf] at hwa; cases hwa
  by_cases hzr : z ∈ run
  · exact .inl hzr
  cases hza : z.alloc
  · refine .inr ⟨hza, ?_⟩
    rcases hr.free_outside hz hza with hb | ha
    · obtain ⟨x, hx, hxa⟩ := hr.first
      refine ⟨x, hx, .inl ?_⟩
      by_contra hne
      -- the block after `z` is allocated, outside the run, and inside `y`
      rcases hr.inv.tiles.next_mem z hz with he' | ⟨w, hw, hwz⟩
      · omega
      have hwa : w.alloc = true := by simpa [hza] using hr.inv.noAdjFree z hz w hw hwz.symm
      have hwr : w ∉ run := fun hwr => by have := (hr.tiles.bounds w hwr).1; omega
      have := (hr.inv.bounds hw).2.2.1
      exact hcut w hw hwa hwr w.addr ⟨le_rfl, by omega⟩ ⟨by omega, by omega⟩
    · obtain ⟨x, hx, hxe⟩ := hr.last
      refine ⟨x, hx, .inr ?_⟩
      by_contra hne
      -- the block before `z` is allocated, outside the run, and inside `y`
      rcases hr.inv.tiles.prev_mem z hz with hzs' | ⟨w, hw, hwz⟩
      · omega
      have hwa : w.alloc = true := by simpa [hza] using hr.inv.noAdjFree w hw z hz hwz
      have hwr : w ∉ run := fun hwr => by have := (hr.tiles.bounds w hwr).2.1; omega
      have := (hr.inv.bounds hw).2.2.1
      exact hcut w hw hwa hwr (z.addr - 1) ⟨by omega, by omega⟩ ⟨by omega, by omega⟩
  · exact absurd ⟨by omega, by omega⟩
      (hcut z hz hza hzr (max z.addr y.addr) ⟨by omega, by omega⟩)

theorem eq_of_meets {y : Blk} (hy : y ∈ L'.blocks) (hyf : y.alloc = false) (hym : y.Holds m₁)
    {z x : Blk} (hz : z ∈ L'.blocks) (hx : x ∈ run) (hzx : z.Meets x) : z = y := by
  have hxy := hr.within hy hyf hym (hr.mem x hx) (.inl hx)
  have := (hr.inv'.bounds hz).2.2.1; have := (hr.inv.bounds (hr.mem x hx)).2.2.1
  unfold Blk.Meets at hzx; unfold Blk.Within at hxy
  exact hr.inv'.tiles.eq_of_holds hz hy (s := max z.addr x.addr) ⟨by omega, by omega⟩
    ⟨by omega, by omega⟩

end FreedRun

/-- Freeing a run of adjacent allocated blocks, in any order, leaves one free block: the only
block over the run, made of exactly the run and its free neighbours, and in the bucket of its
class. -/
theorem Inv.freeRun_spec {h : Heap} {L : Layout} (hi : Inv h L) {pre run post order : List Blk}
    (hsplit : L.blocks = pre ++ run ++ post) (hne : run ≠ []) (hrun : ∀ x ∈ run, x.alloc = true)
    (hperm : order.Perm run) :
    ∃ h' L', freeAll h (order.map fun b => b.addr + 8) = some h' ∧ Inv h' L' ∧
      (∀ x, Allocated L' x ↔ Allocated L x ∧ x ∉ run) ∧
      ∃ y ∈ L'.blocks, y.alloc = false ∧
        (∃ c, findSegListClass y.size = some c ∧ y.addr ∈ bucket h' c) ∧
        (∀ z ∈ L'.blocks, (∃ x ∈ run, z.Meets x) → z = y) ∧
        ∀ z ∈ L.blocks, (z.Meets y ↔ Merged run z) ∧ (Merged run z → z.Within y) := by
  obtain ⟨m₁, m₂, hpreT, hrunT, hpostT⟩ := Tiles.split3 (hsplit ▸ hi.tiles)
  have hrunL : ∀ x ∈ run, x ∈ L.blocks := fun x hx => by rw [hsplit]; simp [hx]
  obtain ⟨h', L', hf, hi', hsys, hal'⟩ := hi.freeAll_spec order (hperm.nodup_iff.2 hrunT.nodup)
    fun x hx => ⟨hrunL x (hperm.mem_iff.1 hx), hrun x (hperm.mem_iff.1 hx)⟩
  have hr : FreedRun h L h' L' run m₁ m₂ :=
    ⟨hi, hi', hsys.heapStart, by unfold Heap.epi; rw [hsys.brk], hrunT, hpreT.le, hpostT.le, hne,
      hrunL, hrun, fun x => by rw [hal', hperm.mem_iff]⟩
  obtain ⟨y, hy, hyf, hym⟩ := hr.exists_free
  obtain ⟨c, hc, hc14⟩ := findSegListClass_lt (le_of_lt (hi'.size_lt hy))
  refine ⟨h', L', hf, hi', hr.allocated, y, hy, hyf, ⟨c, hc, ?_⟩,
    fun z hz ⟨x, hx, hzx⟩ => hr.eq_of_meets hy hyf hym hz hx hzx, fun z hz =>
      ⟨⟨hr.merged_of_meets hy hyf hym hz, fun hm => ?_⟩, hr.within hy hyf hym hz⟩⟩
  · rw [hi'.toShape.bucket_eq hc14]; exact hi'.covered y hy hyf c hc
  · have := hr.within hy hyf hym hz hm; have := (hi.bounds hz).2.2.1
    unfold Blk.Within at *; exact ⟨by omega, by omega⟩

/-! ## The order of `free`s does not show -/

/-- `malloc(24)` once more after `okMalloc`. -/
def okMalloc2 : Heap × Nat := (malloc okMalloc.1 24).get (by decide)

theorem okMalloc2_eq : malloc okMalloc.1 24 = some okMalloc2 := (Option.some_get _).symm

theorem Ready.malloc_ne_zero {h h' : Heap} {L : Layout} {size p : Nat} (hr : Ready h L)
    (hsz : size ≤ 2 ^ 63 - 24) (hm : malloc h size = some (h', p)) (hp : p ≠ 0) :
    ∃ L' y, Inv h' L' ∧ p = y.addr + 8 ∧ ¬ Allocated L y ∧
      ∀ x, Allocated L' x ↔ Allocated L x ∨ x = y := by
  obtain ⟨h₁, L₁, p₁, hm₁, -, -, hp₁⟩ := hr.malloc_spec hsz
  obtain ⟨rfl, rfl⟩ := Prod.mk.inj (Option.some.inj (hm.symm.trans hm₁))
  rcases hp₁ with ⟨hp0, -⟩ | ⟨y, hy, -, hny, -, hi, hal⟩
  · exact absurd hp0 hp
  · exact ⟨L₁, y, hi, hy, hny, hal⟩

/-- After `mm_init`, `malloc(24)` and `malloc(24)`, the heap satisfies the invariant with two
allocated blocks, whose payloads are at `32` and `64`. -/
theorem okMalloc2_allocated : ∃ L, Inv okMalloc2.1 L ∧ ∃ p q, Allocated L p ∧ Allocated L q ∧
    p ≠ q ∧ p.addr + 8 = 32 ∧ q.addr + 8 = 64 := by
  obtain ⟨L₀, hi₀, -⟩ := okInit_inv
  have h24 : 24 ≤ 2 ^ 63 - 24 := by norm_num
  obtain ⟨L₁, y₁, hi₁, hy₁, -, hal₁⟩ := Ready.malloc_ne_zero (.inr hi₀) h24 okMalloc_eq
    (by decide)
  obtain ⟨L₂, y₂, hi₂, hy₂, hny₂, hal₂⟩ := Ready.malloc_ne_zero (.inr hi₁) h24 okMalloc2_eq
    (by decide)
  have hy₁al : Allocated L₁ y₁ := (hal₁ y₁).2 (.inr rfl)
  exact ⟨L₂, hi₂, y₁, y₂, (hal₂ y₁).2 (.inl hy₁al), (hal₂ y₂).2 (.inr rfl),
    fun he => hny₂ (he ▸ hy₁al), hy₁.symm.trans (by decide), hy₂.symm.trans (by decide)⟩

/-- On a heap that satisfies the invariant, `free(p); free(q)` and `free(q); free(p)` of two
distinct live payloads leave the same implicit list, header words included, and the same set of
blocks in each bucket; and freeing a run of adjacent allocated blocks in any order leaves one
free block over the run, made of exactly the run and its free neighbours, in the bucket of its
class. -/
theorem free_order_independent {h : Heap} {L : Layout} (hi : Inv h L) :
    (∀ p q : Blk, Allocated L p → Allocated L q → p ≠ q →
      ∃ h₁ h₂, freeAll h [p.addr + 8, q.addr + 8] = some h₁ ∧
        freeAll h [q.addr + 8, p.addr + 8] = some h₂ ∧ implicitList h₁ = implicitList h₂ ∧
        ∀ c < MAX_SEG_LIST_LENGTH, (bucket h₁ c).Perm (bucket h₂ c)) ∧
    ∀ pre run post order : List Blk, L.blocks = pre ++ run ++ post → run ≠ [] →
      (∀ x ∈ run, x.alloc = true) → order.Perm run →
      ∃ h' L', freeAll h (order.map fun b => b.addr + 8) = some h' ∧ Inv h' L' ∧
        ∃ y ∈ L'.blocks, y.alloc = false ∧
          (∃ c, findSegListClass y.size = some c ∧ y.addr ∈ bucket h' c) ∧
          (∀ z ∈ L'.blocks, (∃ x ∈ run, z.Meets x) → z = y) ∧
          ∀ z ∈ L.blocks, (z.Meets y ↔ Merged run z) ∧ (Merged run z → z.Within y) := by
  refine ⟨fun p q hp hq hpq => hi.freeAll_perm (List.Perm.swap q p []) (by simp [hpq])
    (by simp [hp, hq]), fun pre run post order hsplit hne hrun hperm => ?_⟩
  obtain ⟨h', L', hf, hi', -, hy⟩ := hi.freeRun_spec hsplit hne hrun hperm
  exact ⟨h', L', hf, hi', hy⟩

/-- The two `malloc(24)` payloads of `okMalloc2`, freed in either order. -/
theorem free_order_independent_okMalloc2 :
    (∃ L, Inv okMalloc2.1 L) ∧ ∃ h₁ h₂, freeAll okMalloc2.1 [32, 64] = some h₁ ∧
      freeAll okMalloc2.1 [64, 32] = some h₂ ∧ implicitList h₁ = implicitList h₂ ∧
      ∀ c < MAX_SEG_LIST_LENGTH, (bucket h₁ c).Perm (bucket h₂ c) := by
  obtain ⟨L, hi, p, q, hp, hq, hpq, hp32, hq64⟩ := okMalloc2_allocated
  rw [← hp32, ← hq64]
  exact ⟨⟨L, hi⟩, (free_order_independent hi).1 p q hp hq hpq⟩

end SystemsLabs.Malloc
