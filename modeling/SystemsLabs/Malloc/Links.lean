import SystemsLabs.Malloc.FreeList

/-!
# Unlinking and LIFO insertion

`fix_free_list` and `insert_block_LIFO` are the only functions of `mm.c` that write free-list
links. Each is described here by what it does to the layout, with the rest of the heap kept:

* `Shape.unlink`: a heap whose words are those of `h` except that `a` is cut out of list `c`
  (its predecessor's `next` or the list head takes `a`'s successor, the successor's `prev` takes
  `a`'s predecessor, and from class 1 on `a`'s own links are cleared) has the shape of
  `L.unlink c a`. `fixFreeList_spec` shows that `fix_free_list` is such a heap, through the
  scan of `scanPrev_eq` for a 16-byte block.
* `Shape.push` and `insertBlockLIFO_spec`: the same for pushing a free, unlisted block on the
  list of its class.
* `freeList_ops`: both at once, as list operations, with the words each may write
  (`UnlinkWrites`, `PushWrites`): the list head and the links of the block and of its list
  neighbours, and no `prev` word of a 16-byte block.

Both keep `Kept`: the payload bytes of the allocated blocks, the client's data. The frame
arguments rest on the slot facts of the first section: a link word of a free block is none of
the words the invariant reads elsewhere (`FixedWord`) and overlaps no allocated payload.
-/

namespace SystemsLabs.Malloc

/-! ## Client bytes and the words the invariant reads -/

/-- Byte `y` lies in the payload of an allocated block of `L`. -/
def InUse (L : Layout) (y : Nat) : Prop :=
  ∃ b ∈ L.blocks, b.alloc = true ∧ b.addr + 8 ≤ y ∧ y < b.addr + b.size

/-- The word at `x` overlaps an allocated payload. -/
def Touches (L : Layout) (x : Nat) : Prop := ∃ y, InUse L y ∧ x ≤ y ∧ y < x + 8

/-- `h'` holds the allocated payloads of `L` as `h` does. -/
def Kept (L : Layout) (h h' : Heap) : Prop := ∀ y, InUse L y → h'.mem y = h.mem y

theorem Kept.refl (L : Layout) (h : Heap) : Kept L h h := fun _ _ => rfl

theorem Kept.trans {L : Layout} {h₁ h₂ h₃ : Heap} (h12 : Kept L h₁ h₂) (h23 : Kept L h₂ h₃) :
    Kept L h₁ h₃ := fun y hy => (h23 y hy).trans (h12 y hy)

/-- A byte is kept when the aligned word holding it is. -/
theorem Heap.mem_eq_of_word {h h' : Heap} {y : Nat} (hw : h'.word (y - y % 8) = h.word (y - y % 8)) :
    h'.mem y = h.mem y := by
  have := Mem.readBytes_inj h.mem (y - y % 8) 8 hw (y % 8) (by omega)
  rwa [show y - y % 8 + y % 8 = y by omega] at this

/-- A heap that keeps every aligned word overlapping an allocated payload keeps the payloads. -/
theorem kept_of_word {L : Layout} {h h' : Heap}
    (hw : ∀ x, x % 8 = 0 → Touches L x → h'.word x = h.word x) : Kept L h h' := fun y hy =>
  Heap.mem_eq_of_word (hw _ (by omega) ⟨y, hy, by omega, by omega⟩)

/-- The words the invariant reads outside the free lists: the prologue, the headers, the
epilogue and the footers of free blocks. -/
def FixedWord (h : Heap) (L : Layout) (x : Nat) : Prop :=
  x = h.heapStart - 8 ∨ x = h.epi ∨ (∃ b ∈ L.blocks, x = b.addr) ∨
    ∃ b ∈ L.blocks, b.alloc = false ∧ b.size ≠ 16 ∧ x = b.addr + b.size - 8

/-- `L` with `a` taken off list `c`. -/
def Layout.unlink (L : Layout) (c a : Nat) : Layout :=
  ⟨L.blocks, Function.update L.lists c ((L.lists c).erase a)⟩

/-- `L` with `a` pushed on list `c`. -/
def Layout.push (L : Layout) (c a : Nat) : Layout :=
  ⟨L.blocks, Function.update L.lists c (a :: L.lists c)⟩

@[simp] theorem Layout.unlink_blocks (L : Layout) (c a : Nat) : (L.unlink c a).blocks = L.blocks :=
  rfl

@[simp] theorem Layout.push_blocks (L : Layout) (c a : Nat) : (L.push c a).blocks = L.blocks := rfl

/-- The words `fix_free_list(a)` may change when it cuts `a` out of list `c`, whose neighbours
there are `p = prevIn` and `n = nextIn`: the list head (`seg_list[c]` takes `n` when `a` is
first), `p`'s `next`, and from class 1 on `a`'s own links and `n`'s `prev`. Every other word
and global is as it was. -/
structure UnlinkWrites (L : Layout) (c a : Nat) (h h' : Heap) : Prop where
  sys : Heap.SameSys h h'
  segList : h'.segList = if prevIn (L.lists c) a = 0 then
    Function.update h.segList c (nextIn (L.lists c) a) else h.segList
  word : ∀ x, x % 8 = 0 → h'.word x =
    if c ≠ 0 ∧ (x = nextOf a ∨ x = prevOf a) then 0
    else if prevIn (L.lists c) a ≠ 0 ∧ x = nextOf (prevIn (L.lists c) a) then nextIn (L.lists c) a
    else if c ≠ 0 ∧ nextIn (L.lists c) a ≠ 0 ∧ x = prevOf (nextIn (L.lists c) a) then
      prevIn (L.lists c) a
    else h.word x

/-- The words `insert_block_LIFO(b)` may change when it pushes `b` on list `c`: the list head,
`b`'s `next`, and unless `b` has 16 bytes `b`'s `prev` and the old head's `prev`. Every other
word and global is as it was. -/
structure PushWrites (L : Layout) (c : Nat) (b : Blk) (h h' : Heap) : Prop where
  sys : Heap.SameSys h h'
  segList : h'.segList = Function.update h.segList c b.addr
  word : ∀ x, x % 8 = 0 → h'.word x = if x = nextOf b.addr then (L.lists c).headD 0
    else if b.size ≠ 16 ∧ x = prevOf b.addr then 0
    else if b.size ≠ 16 ∧ (L.lists c).headD 0 ≠ 0 ∧ x = prevOf ((L.lists c).headD 0) then b.addr
    else h.word x

/-! ## What the two functions write -/

/-- A store made only when `q` holds. -/
theorem Heap.ite_store (h : Heap) {a x : Nat} (q : Prop) [Decidable q] (v : Nat) (ha : a % 8 = 0)
    (hx : x % 8 = 0) : Heap.SameSys h (if q then h.store a v else h) ∧
      (if q then h.store a v else h).segList = h.segList ∧
      (if q then h.store a v else h).word x = if q ∧ x = a then v % 2 ^ 64 else h.word x := by
  by_cases hq : q <;> simp [hq, Heap.word_store _ _ ha hx, Heap.SameSys.refl, Heap.SameSys.store]

/-- What `fix_free_list` writes for a block of more than 16 bytes whose `prev` and `next` words
are `p` and `n`. -/
theorem fixFreeList_of_ne {h : Heap} {a c p n : Nat} (hcls : findSegListClass (getSize h a) = some c)
    (h16 : getSize h a ≠ 16) (hp : h.word (prevOf a) = p) (hn : h.word (nextOf a) = n)
    (ha : a % 8 = 0) (hp8 : p % 8 = 0) (hn8 : n % 8 = 0) :
    ∃ h', fixFreeList h a = some h' ∧ Heap.SameSys h h' ∧
      h'.segList = (if p = 0 then Function.update h.segList c n else h.segList) ∧
      ∀ x, x % 8 = 0 → h'.word x = if x = nextOf a ∨ x = prevOf a then 0
        else if p ≠ 0 ∧ x = nextOf p then n else if n ≠ 0 ∧ x = prevOf n then p else h.word x := by
  have hp64 : p < 2 ^ 64 := hp ▸ h.mem.read_lt _
  have hn64 : n < 2 ^ 64 := hn ▸ h.mem.read_lt _
  simp only [fixFreeList, hcls, hp, hn, Option.bind_eq_bind, Option.some_bind, minBlockSize_eq,
    ne_eq, h16, not_false_eq_true, if_true]
  unfold nextOf prevOf at *
  have hY := fun x hx => Heap.ite_store h (¬ n = 0) p (a := n + 16) (x := x) (by omega) hx
  by_cases hp0 : p = 0
  · subst hp0
    simp only [eq_self_iff_true, if_true]
    refine ⟨_, rfl, (hY 0 (by omega)).1.trans ⟨rfl, rfl, rfl, rfl, rfl⟩, by
      simp only [Heap.store_segList, Heap.setSegList_segList, (hY 0 (by omega)).2.1], fun x hx => ?_⟩
    rw [Heap.word_store _ _ (by omega) hx, Heap.word_store _ _ (by omega) hx, Heap.word_setSegList,
      (hY x hx).2.2]
    simp only [Nat.zero_mod, not_true_eq_false, false_and, if_false]
    split_ifs <;> omega
  · simp only [hp0, if_false]
    refine ⟨_, rfl, (hY 0 (by omega)).1.trans ⟨rfl, rfl, rfl, rfl, rfl⟩, by
      simp only [Heap.store_segList, (hY 0 (by omega)).2.1], fun x hx => ?_⟩
    rw [Heap.word_store _ _ (by omega) hx, Heap.word_store _ _ (by omega) hx,
      Heap.word_store _ _ (by omega) hx, (hY x hx).2.2]
    simp only [Nat.zero_mod, Nat.mod_eq_of_lt hn64, Nat.mod_eq_of_lt hp64, hp0, not_false_eq_true,
      true_and]
    split_ifs <;> omega

/-- What `fix_free_list` writes for a 16-byte block whose `next` word is `n` and whose
predecessor, as the scan finds it, is `p`. -/
theorem fixFreeList_of_min {h : Heap} {a c p n : Nat}
    (hcls : findSegListClass (getSize h a) = some c) (h16 : getSize h a = 16)
    (hscan : scanPrev h a listFuel (h.segList c) = some p) (hn : h.word (nextOf a) = n)
    (hp8 : p % 8 = 0) :
    ∃ h', fixFreeList h a = some h' ∧ Heap.SameSys h h' ∧
      h'.segList = (if p = 0 then Function.update h.segList c n else h.segList) ∧
      ∀ x, x % 8 = 0 → h'.word x = if p ≠ 0 ∧ x = nextOf p then n else h.word x := by
  have hn64 : n < 2 ^ 64 := hn ▸ h.mem.read_lt _
  rw [h16] at hcls
  simp only [fixFreeList, h16, hcls, hn, hscan, Option.bind_eq_bind, Option.some_bind,
    minBlockSize_eq, ne_eq, not_true_eq_false, if_false]
  by_cases hp0 : p = 0
  · simp only [hp0, not_true_eq_false, if_false, if_true, false_and]
    exact ⟨_, rfl, Heap.SameSys.setSegList _ _ _, rfl, fun x _ => rfl⟩
  · simp only [hp0, not_false_eq_true, if_true, if_false, true_and]
    refine ⟨_, rfl, Heap.SameSys.store _ _ _, rfl, fun x hx => ?_⟩
    rw [Heap.word_store _ _ (by unfold nextOf; omega) hx, Nat.mod_eq_of_lt hn64]


/-- What `insert_block_LIFO` writes for a block of class `c`. -/
theorem insertBlockLIFO_of_class {h : Heap} {a c : Nat}
    (hcls : findSegListClass (getSize h a) = some c) (ha : a % 8 = 0) (ha64 : a < 2 ^ 64)
    (hf8 : h.segList c % 8 = 0) (hf64 : h.segList c < 2 ^ 64) :
    ∃ h', insertBlockLIFO h a = some h' ∧ Heap.SameSys h h' ∧
      h'.segList = Function.update h.segList c a ∧
      ∀ x, x % 8 = 0 → h'.word x = if x = nextOf a then h.segList c
        else if getSize h a ≠ 16 ∧ x = prevOf a then 0
        else if getSize h a ≠ 16 ∧ h.segList c ≠ 0 ∧ x = prevOf (h.segList c) then a
        else h.word x := by
  simp only [insertBlockLIFO, hcls, Option.bind_eq_bind, Option.some_bind, minBlockSize_eq]
  unfold nextOf prevOf at *
  have hY := fun x hx => Heap.ite_store h (getSize h a ≠ 16 ∧ h.segList c ≠ 0) a
    (a := h.segList c + 16) (x := x) (by omega) hx
  have hZ := fun x hx => Heap.ite_store ((if getSize h a ≠ 16 ∧ h.segList c ≠ 0 then
    h.store (h.segList c + 16) a else h).store (a + 8) (h.segList c)) (getSize h a ≠ 16) 0
    (a := a + 16) (x := x) (by omega) hx
  refine ⟨_, rfl, (hY 0 rfl).1.trans ((Heap.SameSys.store _ _ _).trans
    ((hZ 0 rfl).1.trans (Heap.SameSys.setSegList _ _ _))), ?_, fun x hx => ?_⟩
  · rw [Heap.setSegList_segList, (hZ 0 rfl).2.1, Heap.store_segList, (hY 0 rfl).2.1]
  · rw [Heap.word_setSegList, (hZ x hx).2.2, Heap.word_store _ _ (by omega) hx, (hY x hx).2.2]
    simp only [Nat.zero_mod, Nat.mod_eq_of_lt hf64, Nat.mod_eq_of_lt ha64]
    split_ifs <;> omega

/-! ## The layout after them -/

namespace Shape
variable {h : Heap} {L : Layout} (hs : Shape h L)
include hs

theorem fixed_mod {x : Nat} (hx : FixedWord h L x) : x % 8 = 0 := by
  have := hs.start_mod; have := hs.epi_mod
  rcases hx with rfl | rfl | ⟨b, hb, rfl⟩ | ⟨b, hb, -, -, rfl⟩
  · omega
  · omega
  · have := hs.addr_mod hb; omega
  · have := hs.addr_mod hb; have := hs.bounds hb; omega

/-- The `next` word of a block is a word the invariant reads only through the free lists. -/
theorem nextOf_not_fixed {b : Blk} (hb : b ∈ L.blocks) : ¬ FixedWord h L (nextOf b.addr) := by
  have := hs.addr_mod hb; have := hs.bounds hb; have := hs.start_mod; have := hs.epi_mod
  rintro (h1 | h1 | ⟨x, hx, h1⟩ | ⟨x, hx, -, hx16, h1⟩) <;> unfold nextOf at h1
  · omega
  · omega
  · have := hs.addr_mod hx; omega
  · have := hs.bounds hx
    have := hs.tiles.eq_of_slot_eq hb hx 8 (x.size - 8) (by omega) (by omega) (by omega)
    subst this; omega

theorem prevOf_not_fixed {b : Blk} (hb : b ∈ L.blocks) (h16 : 16 < b.size) :
    ¬ FixedWord h L (prevOf b.addr) := by
  have := hs.addr_mod hb; have := hs.bounds hb; have := hs.start_mod
  rintro (h1 | h1 | ⟨x, hx, h1⟩ | ⟨x, hx, -, -, h1⟩) <;> unfold prevOf at h1
  · omega
  · omega
  · have := hs.bounds hx
    have := hs.tiles.eq_of_slot_eq hb hx 16 0 (by omega) (by omega) (by omega)
    subst this; omega
  · have := hs.addr_mod hx; have := hs.bounds hx; omega

/-- A word inside a free block overlaps no allocated payload. -/
theorem not_touches_free {f : Blk} (hf : f ∈ L.blocks) (hfree : f.alloc = false) {o : Nat}
    (ho : o + 8 ≤ f.size) : ¬ Touches L (f.addr + o) := by
  rintro ⟨y, ⟨b, hb, halloc, h1, h2⟩, h3, h4⟩
  have := hs.tiles.eq_of_slot_eq hf hb (y - f.addr) (y - b.addr) (by omega) (by omega) (by omega)
  subst this; rw [hfree] at halloc; cases halloc

/-- A header overlaps no allocated payload. -/
theorem not_touches_header {b : Blk} (hb : b ∈ L.blocks) : ¬ Touches L b.addr := by
  rintro ⟨y, ⟨x, hx, -, h1, h2⟩, h3, h4⟩
  have := hs.bounds hb
  have := hs.tiles.eq_of_slot_eq hb hx (y - b.addr) (y - x.addr) (by omega) (by omega) (by omega)
  subst this; omega

theorem not_touches_epi : ¬ Touches L h.epi := by
  rintro ⟨y, ⟨x, hx, -, h1, h2⟩, h3, h4⟩
  have := hs.bounds hx; omega

/-- An address is listed in one class only. -/
theorem class_unique {a c c' : Nat} (h1 : a ∈ L.lists c) (h2 : a ∈ L.lists c') : c = c' := by
  obtain ⟨b, hb, rfl, -, hc⟩ := hs.listed h1
  obtain ⟨b', hb', hba, -, hc'⟩ := hs.listed h2
  rw [hs.tiles.eq_of_addr_eq hb' hb hba, hc] at hc'
  exact Option.some.inj hc'

/-- What the frame arguments need of a listed address `a`: where its links sit, and that they
are neither fixed words nor overlap a payload. -/
theorem listed_links {a c : Nat} (ha : a ∈ L.lists c) :
    a % 16 = 8 ∧ a ≠ 0 ∧ ¬ FixedWord h L (nextOf a) ∧ ¬ Touches L (nextOf a) ∧
      (c ≠ 0 → ¬ FixedWord h L (prevOf a) ∧ ¬ Touches L (prevOf a)) := by
  obtain ⟨b, hb, rfl, hfree, -⟩ := hs.listed ha
  have := hs.bounds hb
  refine ⟨hs.addr_mod hb, fun h0 => hs.zero_not_mem c (h0 ▸ ha), hs.nextOf_not_fixed hb,
    hs.not_touches_free hb hfree (by omega), fun hc => ?_⟩
  obtain ⟨b', hb', hba, -, h16⟩ := hs.listed_size hc ha
  rw [hs.tiles.eq_of_addr_eq hb' hb hba] at h16
  exact ⟨hs.prevOf_not_fixed hb h16, hs.not_touches_free hb hfree (by omega)⟩

/-- A heap that agrees with `h` on the fixed words, with free lists that satisfy `ListsOk`, has
the shape of `h` with those lists. -/
theorem relist {h' : Heap} (hsys : Heap.SameSys h h')
    (hfix : ∀ x, FixedWord h L x → h'.word x = h.word x) {lists : Nat → List Nat}
    (hl : ListsOk h' ⟨L.blocks, lists⟩) : Shape h' ⟨L.blocks, lists⟩ where
  lo := hsys.lo ▸ hs.lo
  start := by rw [hsys.heapStart, hsys.lo]; exact hs.start
  brk := hsys.brk ▸ hs.brk
  tiles := by rw [hsys.heapStart, Heap.epi, hsys.brk]; exact hs.tiles
  prologue := by rw [hsys.heapStart, hfix _ (.inl rfl)]; exact hs.prologue
  headers b hb := by rw [hfix _ (.inr (.inr (.inl ⟨b, hb, rfl⟩)))]; exact hs.headers b hb
  epilogue := by
    rw [Heap.epi, hsys.brk, ← Heap.epi, hfix _ (.inr (.inl rfl))]; exact hs.epilogue
  footers b hb hfree h16 := by
    rw [hfix _ (.inr (.inr (.inr ⟨b, hb, hfree, h16, rfl⟩)))]; exact hs.footers b hb hfree h16
  lists := hl

/-- The lists of `L` with list `c` replaced by `l` satisfy `ListsOk` in `h'` when the other
lists keep their heads and link words and `l` is a list of free blocks of class `c` linked in
`h'`. -/
theorem listsOk_update {h' : Heap} {c : Nat} {l : List Nat}
    (hseg : ∀ c', c' ≠ c → h'.segList c' = h.segList c')
    (hother : ∀ c', c' ≠ c → ∀ x ∈ L.lists c',
      (c' ≠ 0 → h'.word (prevOf x) = h.word (prevOf x)) ∧ h'.word (nextOf x) = h.word (nextOf x))
    (hnd : l.Nodup) (hbound : MAX_SEG_LIST_LENGTH ≤ c → l = [])
    (hfree : ∀ a ∈ l, ∃ b ∈ L.blocks, b.addr = a ∧ b.alloc = false ∧
      findSegListClass b.size = some c)
    (hhead : c < MAX_SEG_LIST_LENGTH → h'.segList c = l.headD 0)
    (hnext : ∀ a ∈ l, h'.word (nextOf a) = nextIn l a)
    (hprev : c ≠ 0 → ∀ a ∈ l, h'.word (prevOf a) = prevIn l a) :
    ListsOk h' ⟨L.blocks, Function.update L.lists c l⟩ where
  nodup c' := by
    rcases eq_or_ne c' c with rfl | hcc
    · simpa only [Function.update_same] using hnd
    · simpa only [Function.update_noteq hcc] using hs.lists.nodup c'
  bound c' hc' := by
    rcases eq_or_ne c' c with rfl | hcc
    · simpa only [Function.update_same] using hbound hc'
    · simpa only [Function.update_noteq hcc] using hs.lists.bound c' hc'
  free c' x hx := by
    rcases eq_or_ne c' c with rfl | hcc
    · simp only [Function.update_same] at hx; exact hfree x hx
    · simp only [Function.update_noteq hcc] at hx; exact hs.lists.free c' x hx
  head c' hc' := by
    rcases eq_or_ne c' c with rfl | hcc
    · simpa only [Function.update_same] using hhead hc'
    · simp only [Function.update_noteq hcc]; rw [hseg c' hcc]; exact hs.lists.head c' hc'
  next c' x hx := by
    rcases eq_or_ne c' c with rfl | hcc
    · simp only [Function.update_same] at hx ⊢; exact hnext x hx
    · simp only [Function.update_noteq hcc] at hx ⊢
      rw [(hother c' hcc x hx).2]; exact hs.lists.next c' x hx
  prev c' hc0 x hx := by
    rcases eq_or_ne c' c with rfl | hcc
    · simp only [Function.update_same] at hx ⊢; exact hprev hc0 x hx
    · simp only [Function.update_noteq hcc] at hx ⊢
      rw [(hother c' hcc x hx).1 hc0]; exact hs.lists.prev c' hc0 x hx

/-- Cutting `a` out of list `c`, word by word: the predecessor's `next` (or the list head) takes
`a`'s successor, from class 1 on the successor's `prev` takes `a`'s predecessor and `a`'s own
links are cleared, and no other word changes. The result has the shape of `L.unlink c a`. -/
theorem unlink {h' : Heap} {c a : Nat} (ha : a ∈ L.lists c) (hsys : Heap.SameSys h h')
    (hseg : h'.segList = if prevIn (L.lists c) a = 0 then
      Function.update h.segList c (nextIn (L.lists c) a) else h.segList)
    (hword : ∀ x, x % 8 = 0 → h'.word x =
      if c ≠ 0 ∧ (x = nextOf a ∨ x = prevOf a) then 0
      else if prevIn (L.lists c) a ≠ 0 ∧ x = nextOf (prevIn (L.lists c) a) then
        nextIn (L.lists c) a
      else if c ≠ 0 ∧ nextIn (L.lists c) a ≠ 0 ∧ x = prevOf (nextIn (L.lists c) a) then
        prevIn (L.lists c) a
      else h.word x) :
    Shape h' (L.unlink c a) ∧ Kept L h h' := by
  have hnd := hs.lists.nodup c
  have h0 := hs.zero_not_mem c
  obtain ⟨ham, -, hafix, hatouch, haprev⟩ := hs.listed_links ha
  have hp : prevIn (L.lists c) a ≠ 0 → prevIn (L.lists c) a ∈ L.lists c :=
    prevIn_mem_or_zero.resolve_right
  have hn : nextIn (L.lists c) a ≠ 0 → nextIn (L.lists c) a ∈ L.lists c :=
    nextIn_mem_or_zero.resolve_right
  -- the words the invariant reads elsewhere, and the payloads, are none of the four written
  have hsafe : ∀ x, x % 8 = 0 → (FixedWord h L x ∨ Touches L x) → h'.word x = h.word x := by
    intro x hx hxs
    rw [hword x hx, if_neg, if_neg, if_neg]
    · rintro ⟨hc, hn0, rfl⟩
      have := (hs.listed_links (hn hn0)).2.2.2.2 hc; exact hxs.elim this.1 this.2
    · rintro ⟨hp0, rfl⟩
      have := hs.listed_links (hp hp0); exact hxs.elim this.2.2.1 this.2.2.2.1
    · rintro ⟨hc, rfl | rfl⟩
      · exact hxs.elim hafix hatouch
      · exact hxs.elim (haprev hc).1 (haprev hc).2
  refine ⟨hs.relist hsys (fun x hx => hsafe x (hs.fixed_mod hx) (.inl hx)) ?_,
    kept_of_word fun x hx ht => hsafe x hx (.inr ht)⟩
  -- a link word of another class is none of the four written
  have hother : ∀ c', c' ≠ c → ∀ x ∈ L.lists c', (c' ≠ 0 → h'.word (prevOf x) = h.word (prevOf x))
      ∧ h'.word (nextOf x) = h.word (nextOf x) := by
    intro c' hcc x hx
    have hxa : x ≠ a := fun hxa => hcc (hs.class_unique hx (hxa ▸ ha))
    have hxm := (hs.listed_links hx).1
    have hnm : nextIn (L.lists c) a ≠ 0 → nextIn (L.lists c) a ≠ x := fun hn0 hnx =>
      hcc (hs.class_unique hx (hnx ▸ hn hn0))
    have hpm : prevIn (L.lists c) a ≠ 0 → prevIn (L.lists c) a ≠ x := fun hp0 hpx =>
      hcc (hs.class_unique hx (hpx ▸ hp hp0))
    have hnm' : nextIn (L.lists c) a ≠ 0 → nextIn (L.lists c) a % 16 = 8 := fun hn0 =>
      (hs.listed_links (hn hn0)).1
    have hpm' : prevIn (L.lists c) a ≠ 0 → prevIn (L.lists c) a % 16 = 8 := fun hp0 =>
      (hs.listed_links (hp hp0)).1
    unfold nextOf prevOf at hword ⊢
    constructor
    · intro; rw [hword _ (by omega), if_neg (by omega), if_neg (by omega), if_neg (by omega)]
    · rw [hword _ (by omega), if_neg (by omega), if_neg (by omega), if_neg (by omega)]
  refine hs.listsOk_update
    (fun c' hcc => by rw [hseg]; split_ifs <;> simp [Function.update_noteq hcc]) hother (hnd.erase a) (fun hc => absurd (hs.class_lt ha) (by omega))
    (fun x hx => hs.lists.free c x (List.mem_of_mem_erase hx)) (fun hc => ?_) (fun x hx => ?_)
    (fun hc0 x hx => ?_)
  · rw [hseg]
    split_ifs with hp0
    · rw [Function.update_same, headD_erase hnd h0 ha, if_pos hp0]
    · rw [headD_erase hnd h0 ha, if_neg hp0, ← hs.lists.head c hc]
  · obtain ⟨hxa, hxl⟩ := (hnd.mem_erase_iff).1 hx
    have hxm := (hs.listed_links hxl).1
    have hnm : nextIn (L.lists c) a ≠ 0 → nextIn (L.lists c) a % 16 = 8 := fun hn0 =>
      (hs.listed_links (hn hn0)).1
    rw [nextIn_erase hnd h0 ha hxl hxa, hword _ (by unfold nextOf; omega),
      if_neg (by unfold nextOf prevOf; omega)]
    by_cases hxp : x = prevIn (L.lists c) a
    · rw [if_pos ⟨hxp ▸ fun h => h0 (h ▸ hxl), hxp ▸ rfl⟩, if_pos hxp]
    · rw [if_neg (by unfold nextOf; omega), if_neg (by unfold nextOf prevOf; omega), if_neg hxp]
      exact hs.lists.next c x hxl
  · obtain ⟨hxa, hxl⟩ := (hnd.mem_erase_iff).1 hx
    have hxm := (hs.listed_links hxl).1
    have hpm : prevIn (L.lists c) a ≠ 0 → prevIn (L.lists c) a % 16 = 8 := fun hp0 =>
      (hs.listed_links (hp hp0)).1
    rw [prevIn_erase hnd h0 ha hxl hxa, hword _ (by unfold prevOf; omega),
      if_neg (by unfold nextOf prevOf; omega), if_neg (by unfold nextOf prevOf; omega)]
    by_cases hxn : x = nextIn (L.lists c) a
    · rw [if_pos ⟨hc0, hxn ▸ fun h => h0 (h ▸ hxl), hxn ▸ rfl⟩, if_pos hxn]
    · rw [if_neg (by unfold prevOf; omega), if_neg hxn]
      exact hs.lists.prev c hc0 x hxl

/-- Pushing the free, unlisted block `b` on list `c`, word by word: its `next` takes the old
head, from class 1 on its `prev` is cleared and the old head's `prev` takes `b`, the list head
becomes `b`, and no other word changes. The result has the shape of `L.push c b.addr`. -/
theorem push {h' : Heap} {b : Blk} {c : Nat} (hb : b ∈ L.blocks) (hfree : b.alloc = false)
    (hnl : ∀ c', b.addr ∉ L.lists c') (hcls : findSegListClass b.size = some c)
    (hsys : Heap.SameSys h h') (hseg : h'.segList = Function.update h.segList c b.addr)
    (hword : ∀ x, x % 8 = 0 → h'.word x =
      if x = nextOf b.addr then (L.lists c).headD 0
      else if c ≠ 0 ∧ x = prevOf b.addr then 0
      else if c ≠ 0 ∧ (L.lists c).headD 0 ≠ 0 ∧ x = prevOf ((L.lists c).headD 0) then b.addr
      else h.word x) :
    Shape h' (L.push c b.addr) ∧ Kept L h h' := by
  have hnd := hs.lists.nodup c
  have hbm := hs.addr_mod hb
  have hbs := hs.bounds hb
  have hc14 : c < MAX_SEG_LIST_LENGTH := by
    obtain ⟨c', hc', hlt⟩ := findSegListClass_lt (le_of_lt (hs.size_lt hb))
    rw [hcls] at hc'; cases hc'; exact hlt
  have h32 : c ≠ 0 → 16 < b.size := fun hc => by
    by_contra hle; rw [findSegListClass_le_16 (by omega)] at hcls; exact hc (Option.some.inj hcls).symm
  have hf : (L.lists c).headD 0 ≠ 0 → (L.lists c).headD 0 ∈ L.lists c := by
    cases hl : L.lists c with
    | nil => exact fun h => absurd rfl h
    | cons y ys => exact fun _ => List.mem_cons_self _ _
  have hfm : (L.lists c).headD 0 ≠ 0 → (L.lists c).headD 0 % 16 = 8 := fun hf0 =>
    (hs.listed_links (hf hf0)).1
  have hsafe : ∀ x, x % 8 = 0 → (FixedWord h L x ∨ Touches L x) → h'.word x = h.word x := by
    intro x hx hxs
    rw [hword x hx, if_neg, if_neg, if_neg]
    · rintro ⟨hc, hf0, rfl⟩
      have := (hs.listed_links (hf hf0)).2.2.2.2 hc; exact hxs.elim this.1 this.2
    · rintro ⟨hc, rfl⟩
      exact hxs.elim (hs.prevOf_not_fixed hb (h32 hc))
        (hs.not_touches_free hb hfree (by have := h32 hc; omega))
    · rintro rfl
      exact hxs.elim (hs.nextOf_not_fixed hb) (hs.not_touches_free hb hfree (by omega))
  refine ⟨hs.relist hsys (fun x hx => hsafe x (hs.fixed_mod hx) (.inl hx)) ?_,
    kept_of_word fun x hx ht => hsafe x hx (.inr ht)⟩
  -- a link word of another class is none of the three written
  have hother : ∀ c', c' ≠ c → ∀ x ∈ L.lists c', (c' ≠ 0 → h'.word (prevOf x) = h.word (prevOf x))
      ∧ h'.word (nextOf x) = h.word (nextOf x) := by
    intro c' hcc x hx
    have hxb : x ≠ b.addr := fun hxb => hnl c' (hxb ▸ hx)
    have hxm := (hs.listed_links hx).1
    have hfx : (L.lists c).headD 0 ≠ 0 → (L.lists c).headD 0 ≠ x := fun hf0 hfx =>
      hcc (hs.class_unique hx (hfx ▸ hf hf0))
    unfold nextOf prevOf at hword ⊢
    constructor
    · intro; rw [hword _ (by omega), if_neg (by omega), if_neg (by omega), if_neg (by omega)]
    · rw [hword _ (by omega), if_neg (by omega), if_neg (by omega), if_neg (by omega)]
  refine hs.listsOk_update (fun c' hcc => by rw [hseg, Function.update_noteq hcc]) hother
    (List.nodup_cons.2 ⟨hnl c, hnd⟩) (fun hc => absurd hc14 (by omega)) (fun x hx => ?_)
    (fun _ => by rw [hseg, Function.update_same]; rfl) (fun x hx => ?_) (fun hc0 x hx => ?_)
  · rcases List.mem_cons.1 hx with rfl | hx
    · exact ⟨b, hb, rfl, hfree, hcls⟩
    · exact hs.lists.free c x hx
  · rcases List.mem_cons.1 hx with rfl | hxl
    · rw [hword _ (by unfold nextOf; omega), if_pos rfl, nextIn_cons, if_pos rfl]
    · have hxb : x ≠ b.addr := fun hxb => hnl c (hxb ▸ hxl)
      have hxm := (hs.listed_links hxl).1
      rw [hword _ (by unfold nextOf; omega), nextIn_cons, if_neg hxb]
      unfold nextOf prevOf
      rw [if_neg (by omega), if_neg (by omega), if_neg (by omega)]
      exact hs.lists.next c x hxl
  · rcases List.mem_cons.1 hx with rfl | hxl
    · rw [hword _ (by unfold prevOf; omega), prevIn_cons_self (List.nodup_cons.2 ⟨hnl c, hnd⟩)]
      unfold nextOf prevOf
      rw [if_neg (by omega), if_pos ⟨hc0, rfl⟩]
    · have hxb : x ≠ b.addr := fun hxb => hnl c (hxb ▸ hxl)
      have hxm := (hs.listed_links hxl).1
      rw [hword _ (by unfold prevOf; omega)]
      unfold nextOf prevOf
      rw [if_neg (by omega), if_neg (by omega), prevIn]
      by_cases hh : (L.lists c).head? = some x
      · have hfx := (head?_eq_some_iff_headD hxl).1 hh
        have hx0 : x ≠ 0 := fun h0 => hs.zero_not_mem c (h0 ▸ hxl)
        rw [if_pos hh, if_pos ⟨hc0, hfx ▸ hx0, hfx ▸ rfl⟩]
      · rw [if_neg hh, if_neg fun h => hh ((head?_eq_some_iff_headD hxl).2 (by omega))]
        exact hs.lists.prev c hc0 x hxl

/-- `fix_free_list` cuts a listed block out of its list, writing only the list head, the
block's links and those of its neighbours; for a 16-byte block (class 0) the scan finds the
predecessor, and no `prev` word is written. -/
theorem fixFreeList_writes {c a : Nat} (ha : a ∈ L.lists c) :
    ∃ h', fixFreeList h a = some h' ∧ Shape h' (L.unlink c a) ∧ Kept L h h' ∧
      UnlinkWrites L c a h h' ∧ (getSize h a = 16 ↔ c = 0) ∧
      (c = 0 → scanPrev h a listFuel (h.segList 0) = some (prevIn (L.lists 0) a)) := by
  obtain ⟨b, hb, rfl, -, hcls⟩ := hs.listed ha
  rw [← hs.getSize_eq hb] at hcls
  obtain ⟨ham, ha0, -⟩ := hs.listed_links ha
  have hnext := hs.lists.next c _ ha
  have hp8 : prevIn (L.lists c) b.addr % 8 = 0 := by
    rcases prevIn_mem_or_zero (L := L.lists c) (x := b.addr) with hp | hp
    · have := (hs.listed_links hp).1; omega
    · rw [hp]
  have hn8 : nextIn (L.lists c) b.addr % 8 = 0 := by
    rcases nextIn_mem_or_zero (L := L.lists c) (x := b.addr) with hn | hn
    · have := (hs.listed_links hn).1; omega
    · rw [hn]
  by_cases hc : c = 0
  · subst hc
    have h16 : getSize h b.addr = 16 := by
      rw [hs.getSize_eq hb] at hcls ⊢
      have := findSegListClass_zero (le_of_lt (hs.size_lt hb)) hcls; have := hs.bounds hb; omega
    have hscan : scanPrev h b.addr listFuel (h.segList 0) = some (prevIn (L.lists 0) b.addr) := by
      rw [hs.lists.head 0 (by decide)]
      exact scanPrev_eq h ha0 _ _ (hs.linked 0) (hs.length_lt 0)
    obtain ⟨h', hh', hsys, hseg, hword⟩ := fixFreeList_of_min hcls h16 hscan hnext hp8
    have := hs.unlink ha hsys hseg fun x hx => by simpa using hword x hx
    exact ⟨h', hh', this.1, this.2, ⟨hsys, hseg, fun x hx => by simpa using hword x hx⟩,
      iff_of_true h16 rfl, fun _ => hscan⟩
  · obtain ⟨b', hb', hba, -, h16⟩ := hs.listed_size hc ha
    rw [hs.tiles.eq_of_addr_eq hb' hb hba, ← hs.getSize_eq hb] at h16
    obtain ⟨h', hh', hsys, hseg, hword⟩ := fixFreeList_of_ne hcls (by omega)
      (hs.lists.prev c hc _ ha) hnext (by omega) hp8 hn8
    have := hs.unlink ha hsys hseg fun x hx => by simpa [hc] using hword x hx
    exact ⟨h', hh', this.1, this.2, ⟨hsys, hseg, fun x hx => by simpa [hc] using hword x hx⟩,
      iff_of_false (by omega) hc, fun h0 => absurd h0 hc⟩

/-- `fix_free_list` cuts a listed block out of its list and keeps the payloads. -/
theorem fixFreeList_spec {c a : Nat} (ha : a ∈ L.lists c) :
    ∃ h', fixFreeList h a = some h' ∧ Shape h' (L.unlink c a) ∧ Heap.SameSys h h' ∧
      Kept L h h' := by
  obtain ⟨h', hh', hs', hk, hw, -⟩ := hs.fixFreeList_writes ha
  exact ⟨h', hh', hs', hw.sys, hk⟩

/-- `insert_block_LIFO` pushes a free, unlisted block on the list of its class, writing only
the list head, the block's links and the old head's `prev`; it writes no `prev` word for a
16-byte block. -/
theorem insertBlockLIFO_writes {b : Blk} {c : Nat} (hb : b ∈ L.blocks) (hfree : b.alloc = false)
    (hnl : ∀ c', b.addr ∉ L.lists c') (hcls : findSegListClass b.size = some c) :
    ∃ h', insertBlockLIFO h b.addr = some h' ∧ Shape h' (L.push c b.addr) ∧ Kept L h h' ∧
      PushWrites L c b h h' := by
  have hbm := hs.addr_mod hb
  have hbs := hs.bounds hb
  have hlt := hs.size_lt hb
  have hc14 : c < MAX_SEG_LIST_LENGTH := by
    obtain ⟨c', hc', hlt⟩ := findSegListClass_lt (le_of_lt hlt)
    rw [hcls] at hc'; cases hc'; exact hlt
  have h16 : b.size ≠ 16 ↔ c ≠ 0 := by
    constructor
    · rintro h16 rfl; have := findSegListClass_zero (le_of_lt hlt) hcls; omega
    · intro hc h16
      rw [findSegListClass_le_16 (le_of_eq h16)] at hcls; exact hc (Option.some.inj hcls).symm
  have hhead := hs.lists.head c hc14
  have hf : (L.lists c).headD 0 % 8 = 0 ∧ (L.lists c).headD 0 < 2 ^ 64 := by
    cases hl : L.lists c with
    | nil => exact ⟨rfl, by norm_num⟩
    | cons y ys =>
      have hy : y ∈ L.lists c := hl ▸ List.mem_cons_self _ _
      obtain ⟨x, hx, rfl, -⟩ := hs.listed hy
      have := hs.addr_mod hx; have := hs.bounds hx; have := hs.epi_lt
      exact ⟨by simp only [List.headD_cons]; omega, by simp only [List.headD_cons]; omega⟩
  rw [← hs.getSize_eq hb] at hcls
  obtain ⟨h', hh', hsys, hseg, hword⟩ := insertBlockLIFO_of_class hcls (by omega)
    (by have := hs.epi_lt; omega) (hhead ▸ hf.1) (hhead ▸ hf.2)
  rw [hs.getSize_eq hb] at hcls hword
  have hword' : ∀ x, x % 8 = 0 → h'.word x = if x = nextOf b.addr then (L.lists c).headD 0
      else if b.size ≠ 16 ∧ x = prevOf b.addr then 0
      else if b.size ≠ 16 ∧ (L.lists c).headD 0 ≠ 0 ∧ x = prevOf ((L.lists c).headD 0) then b.addr
      else h.word x := fun x hx => by rw [hword x hx, hhead]
  have := hs.push hb hfree hnl hcls hsys hseg fun x hx => by rw [hword' x hx]; simp only [h16]
  exact ⟨h', hh', this.1, this.2, ⟨hsys, hseg, hword'⟩⟩

/-- `insert_block_LIFO` pushes a free, unlisted block on the list of its class and keeps the
payloads. -/
theorem insertBlockLIFO_spec {b : Blk} {c : Nat} (hb : b ∈ L.blocks) (hfree : b.alloc = false)
    (hnl : ∀ c', b.addr ∉ L.lists c') (hcls : findSegListClass b.size = some c) :
    ∃ h', insertBlockLIFO h b.addr = some h' ∧ Shape h' (L.push c b.addr) ∧ Heap.SameSys h h' ∧
      Kept L h h' := by
  obtain ⟨h', hh', hs', hk, hw⟩ := hs.insertBlockLIFO_writes hb hfree hnl hcls
  exact ⟨h', hh', hs', hw.sys, hk⟩

/-- The free-list operations as list operations: on a heap of the shape the invariant gives,
`insert_block_LIFO` of a free block on no list pushes it on the list of its class, and
`fix_free_list` of a listed block erases it from its list, the other lists unchanged; each
writes only the head of that list and the links of the block and of its list neighbours, and
for a 16-byte block (class 0) the scan finds its predecessor and no `prev` word is written. -/
theorem freeList_ops :
    (∀ (b : Blk) (c : Nat), b ∈ L.blocks → b.alloc = false → (∀ c', b.addr ∉ L.lists c') →
      findSegListClass b.size = some c →
      ∃ h', insertBlockLIFO h b.addr = some h' ∧ Shape h' (L.push c b.addr) ∧
        PushWrites L c b h h') ∧
    ∀ a c, a ∈ L.lists c → (getSize h a = 16 ↔ c = 0) ∧
      (c = 0 → scanPrev h a listFuel (h.segList 0) = some (prevIn (L.lists 0) a)) ∧
      ∃ h', fixFreeList h a = some h' ∧ Shape h' (L.unlink c a) ∧ UnlinkWrites L c a h h' := by
  refine ⟨fun b c hb hfree hnl hcls => ?_, fun a c ha => ?_⟩
  · obtain ⟨h', hh', hs', -, hw⟩ := hs.insertBlockLIFO_writes hb hfree hnl hcls
    exact ⟨h', hh', hs', hw⟩
  · obtain ⟨h', hh', hs', -, hw, h16, hscan⟩ := hs.fixFreeList_writes ha
    exact ⟨h16, hscan, h', hh', hs', hw⟩

end Shape

/-- Free 32-byte blocks at `8` and `72` around an allocated one, both on list 1. -/
def twoListed : Heap where
  mem := fun x => if x = 0 then 3 else if x = 8 ∨ x = 32 ∨ x = 72 ∨ x = 96 then 34
    else if x = 40 then 33 else if x = 16 then 72 else if x = 88 then 8 else if x = 104 then 1
    else 0
  heapStart := 8
  segList := fun c => if c = 1 then 8 else 0
  lo := 0
  brk := 112
  sbrkOk := fun _ => false
  sbrkCalls := 1

def twoListedLayout : Layout :=
  ⟨[⟨8, 32, false⟩, ⟨40, 32, true⟩, ⟨72, 32, false⟩], fun c => if c = 1 then [8, 72] else []⟩

theorem twoListed_shape : Shape twoListed twoListedLayout where
  lo := rfl
  start := rfl
  brk := by decide
  tiles := ⟨rfl, by decide, rfl, rfl, by decide, rfl, rfl, by decide, rfl, rfl⟩
  prologue := by decide
  headers := by decide
  epilogue := by decide
  footers := by decide
  lists := .of_forall_lt (fun c hc => by
      simp only [MAX_SEG_LIST_LENGTH_eq] at hc
      simp [twoListedLayout, show c ≠ 1 by omega]) (by decide)

/-- `twoListed` before `8` is listed: list 1 is `[72]`. -/
def oneListed : Heap :=
  { twoListed with
    mem := fun x => if x = 16 ∨ x = 88 then 0 else twoListed.mem x
    segList := fun c => if c = 1 then 72 else 0 }

def oneListedLayout : Layout := ⟨twoListedLayout.blocks, fun c => if c = 1 then [72] else []⟩

theorem oneListed_shape : Shape oneListed oneListedLayout where
  lo := rfl
  start := rfl
  brk := by decide
  tiles := ⟨rfl, by decide, rfl, rfl, by decide, rfl, rfl, by decide, rfl, rfl⟩
  prologue := by decide
  headers := by decide
  epilogue := by decide
  footers := by decide
  lists := .of_forall_lt (fun c hc => by
      simp only [MAX_SEG_LIST_LENGTH_eq] at hc
      simp [oneListedLayout, show c ≠ 1 by omega]) (by decide)

/-- Free 16-byte blocks at `8` and `40` around an allocated one, both on list 0. -/
def twoMin : Heap where
  mem := fun x => if x = 0 then 3 else if x = 8 then 18 else if x = 16 then 40
    else if x = 24 then 21 else if x = 40 then 22 else if x = 56 then 5 else 0
  heapStart := 8
  segList := fun c => if c = 0 then 8 else 0
  lo := 0
  brk := 64
  sbrkOk := fun _ => false
  sbrkCalls := 1

def twoMinLayout : Layout :=
  ⟨[⟨8, 16, false⟩, ⟨24, 16, true⟩, ⟨40, 16, false⟩], fun c => if c = 0 then [8, 40] else []⟩

theorem twoMin_shape : Shape twoMin twoMinLayout where
  lo := rfl
  start := rfl
  brk := by decide
  tiles := ⟨rfl, by decide, rfl, rfl, by decide, rfl, rfl, by decide, rfl, rfl⟩
  prologue := by decide
  headers := by decide
  epilogue := by decide
  footers := by decide
  lists := .of_forall_lt (fun c hc => by
      simp only [MAX_SEG_LIST_LENGTH_eq] at hc
      simp [twoMinLayout, show c ≠ 0 by omega]) (by decide)

/-- `insert_block_LIFO` onto a non-empty list, `fix_free_list` of a block with a neighbour on
list 1, and of the second block of list 0, which the scan from the head finds behind `8`. -/
theorem freeList_ops_twoBlocks :
    Shape oneListed oneListedLayout ∧ Shape twoListed twoListedLayout ∧ Shape twoMin twoMinLayout ∧
      (∃ h', insertBlockLIFO oneListed 8 = some h' ∧ Shape h' (oneListedLayout.push 1 8) ∧
        PushWrites oneListedLayout 1 ⟨8, 32, false⟩ oneListed h') ∧
      (∃ h', fixFreeList twoListed 72 = some h' ∧ Shape h' (twoListedLayout.unlink 1 72) ∧
        UnlinkWrites twoListedLayout 1 72 twoListed h') ∧
      (getSize twoMin 40 = 16 ↔ 0 = 0) ∧
      scanPrev twoMin 40 listFuel (twoMin.segList 0) = some (prevIn (twoMinLayout.lists 0) 40) ∧
      ∃ h', fixFreeList twoMin 40 = some h' ∧ Shape h' (twoMinLayout.unlink 0 40) ∧
        UnlinkWrites twoMinLayout 0 40 twoMin h' :=
  ⟨oneListed_shape, twoListed_shape, twoMin_shape,
    (Shape.freeList_ops oneListed_shape).1 ⟨8, 32, false⟩ 1 (by decide) rfl
      (fun c => by by_cases hc : c = 1 <;> simp [oneListedLayout, hc]) (by decide),
    ((Shape.freeList_ops twoListed_shape).2 72 1 (by decide)).2.2,
    (Shape.freeList_ops twoMin_shape).2 40 0 (by decide) |>.1,
    ((Shape.freeList_ops twoMin_shape).2 40 0 (by decide)).2.1 rfl,
    ((Shape.freeList_ops twoMin_shape).2 40 0 (by decide)).2.2⟩

example : prevIn (twoMinLayout.lists 0) 40 = 8 := by decide

end SystemsLabs.Malloc
