import SystemsLabs.Malloc.Extend

/-!
# The interface: `malloc`, `free`, `realloc`, `calloc`, and the client's stores

What each entry point of `mm.c` does to a heap that satisfies the invariant, stated through the
allocated blocks (`Allocated`) and their payloads (`InUse`, `Kept`):

* `Inv.malloc_spec`: `malloc(size)` returns `NULL`, with the same allocated blocks, or the
  payload of one new allocated block of at least `size + 8` bytes, which was not allocated
  before. The block comes from `find_fit` (`Inv.findFit_fits`) or from `extend_heap`, and is
  placed by `split_block` (`Inv.place`). `Ready.malloc_spec` is the same on every heap a client
  meets (`Ready`), the state before `mm_init` included.
* `free(NULL)` does nothing (`free_null`); `free` of a live payload is `Inv.free_spec`.
* `Inv.of_mem`: a heap that differs only in bytes of allocated payloads satisfies the invariant
  too. The stores of the client, and those of `memcpy` in `realloc` and `memset` in `calloc`,
  are such changes (`Inv.store`, `Inv.memcpy`, `Inv.memset`).
* `Inv.realloc_spec` and `Ready.calloc_spec` put these together.
* `calloc_eq_null_or_malloc`: the overflow test of `calloc` (`mul_mod_div_ne_iff`) rejects
  exactly the products that do not fit in 64 bits.
-/

namespace SystemsLabs.Malloc

/-- `malloc` of a nonzero size once the heap exists: `find_fit`, `extend_heap` when it finds
nothing, `split_block`. -/
theorem malloc_eq {h : Heap} {size : Nat} (hne : h.heapStart ≠ 0) (h0 : size ≠ 0) :
    malloc h size = (findFit h (adjustedSize size)).bind fun block =>
      ((if block = 0 then extendHeap h (Malloc.max (adjustedSize size) chunksize)
        else some (h, block)).bind fun r =>
          if r.2 = 0 then some (r.1, 0)
          else (splitBlock r.1 r.2 (adjustedSize size)).bind fun h' => some (h', r.2 + 8)) := by
  simp only [malloc, hne, h0, if_false, Option.pure_def, Option.bind_eq_bind, Option.some_bind,
    Bool.not_true, Bool.false_eq_true, headerToPayload, wsize_eq]
  congr 1; funext block; by_cases hb : block = 0 <;> simp [hb]

namespace Inv
variable {h : Heap} {L : Layout} (hi : Inv h L)
include hi

/-! ## Finding and placing a block -/

/-- `find_fit(asize)` returns `NULL` or a listed block of at least `asize` bytes. -/
theorem findFit_fits {asize : Nat} (h63 : asize ≤ 2 ^ 63) :
    ∃ r, findFit h asize = some r ∧ (r ≠ 0 → ∃ b c, b ∈ L.blocks ∧ b.addr = r ∧
      r ∈ L.lists c ∧ asize ≤ b.size) := by
  obtain ⟨cls, hcls, hlt⟩ := findSegListClass_lt h63
  obtain ⟨r, hr, hspec⟩ := hi.toShape.fitFrom_spec asize (MAX_SEG_LIST_LENGTH - cls) cls (by omega)
  refine ⟨r, by rw [findFit, hcls]; exact hr, fun hr0 => ?_⟩
  rcases hspec with ⟨rfl, -⟩ | ⟨c, -, -, -, hmem, -, -, -, -, hfit⟩
  · exact absurd rfl hr0
  · obtain ⟨b, hb, rfl, -, -⟩ := hi.toShape.listed hmem
    exact ⟨b, c, hb, rfl, hmem, by rwa [hi.toShape.getSize_eq hb] at hfit⟩

/-- `split_block` of a listed block allocates a block at its address that was not allocated
before. -/
theorem place {b : Blk} {c asize : Nat} (hb : b ∈ L.blocks) (hl : b.addr ∈ L.lists c)
    (hfit : asize ≤ b.size) (h16 : 16 ≤ asize) (hmod : asize % 16 = 0) :
    ∃ h' L' y, splitBlock h b.addr asize = some h' ∧ Inv h' L' ∧ Kept L h h' ∧
      y.addr = b.addr ∧ ¬ Allocated L y ∧ asize ≤ y.size ∧
      ∀ x, Allocated L' x ↔ Allocated L x ∨ x = y := by
  obtain ⟨h', L', sz, hsp, hinv, -, hal, hsz, hk⟩ := hi.splitBlock_spec hb hl hfit h16 hmod
  exact ⟨h', L', ⟨b.addr, sz, true⟩, hsp, hinv, hk, rfl,
    fun ⟨hy, hya⟩ => hi.toShape.not_listed_of_alloc hy hya c hl, hsz, hal⟩

/-! ## `malloc` -/

/-- `malloc(size)` on a heap that satisfies the invariant. -/
theorem malloc_spec {size : Nat} (hsz : size ≤ 2 ^ 63 - 24) :
    ∃ h' L' p, malloc h size = some (h', p) ∧ Inv h' L' ∧ Kept L h h' ∧
      ((p = 0 ∧ ∀ x, Allocated L' x ↔ Allocated L x) ∨
        ∃ y, p = y.addr + 8 ∧ 0 < size ∧ ¬ Allocated L y ∧ size + 8 ≤ y.size ∧
          ∀ x, Allocated L' x ↔ Allocated L x ∨ x = y) := by
  have hne : h.heapStart ≠ 0 := by rw [hi.start]; omega
  by_cases h0 : size = 0
  · exact ⟨h, L, 0, by simp [malloc, hne, h0], hi, Kept.refl L h, .inl ⟨rfl, fun _ => Iff.rfl⟩⟩
  obtain ⟨hmod, hlo, hhi⟩ := adjustedSize_spec (show size ≤ 2 ^ 64 - 24 by omega)
  obtain ⟨r, hr, hfit⟩ := hi.findFit_fits (show adjustedSize size ≤ 2 ^ 63 by omega)
  rw [malloc_eq hne h0, hr, Option.some_bind]
  by_cases hr0 : r = 0
  · -- no fit: grow the heap
    have hmax : adjustedSize size ≤ Malloc.max (adjustedSize size) chunksize ∧
        16 < Malloc.max (adjustedSize size) chunksize ∧
        Malloc.max (adjustedSize size) chunksize ≤ 2 ^ 63 := by
      have hc : chunksize = 4096 := rfl
      unfold Malloc.max; split_ifs <;> omega
    obtain ⟨h2, L2, r2, hext, hi2, hal2, hk2, hr2⟩ := hi.extendHeap_spec hmax.2.1 hmax.2.2
    rw [if_pos hr0, hext, Option.some_bind]
    by_cases hr20 : r2 = 0
    · exact ⟨h2, L2, 0, by rw [if_pos hr20], hi2, hk2, .inl ⟨rfl, hal2⟩⟩
    obtain ⟨y, c, rfl, hy, hyl, hysz⟩ := hr2 hr20
    obtain ⟨h', L', z, hsp, hinv, hk, hz, hzn, hzsz, hal⟩ :=
      hi2.place hy hyl (le_trans hmax.1 hysz) (by omega) hmod
    refine ⟨h', L', y.addr + 8, by rw [if_neg hr20, hsp]; rfl, hinv,
      fun w hw => (hk w (InUse.mono (fun x hx => (hal2 x).2 hx) hw)).trans (hk2 w hw),
      .inr ⟨z, by rw [hz], Nat.pos_of_ne_zero h0, fun hzL => hzn ((hal2 z).2 hzL), by omega,
        fun x => ?_⟩⟩
    rw [hal x, hal2 x]
  · -- a listed fit
    obtain ⟨b, c, hb, rfl, hl, hbsz⟩ := hfit hr0
    obtain ⟨h', L', z, hsp, hinv, hk, hz, hzn, hzsz, hal⟩ := hi.place hb hl hbsz (by omega) hmod
    exact ⟨h', L', b.addr + 8, by rw [if_neg hr0, Option.some_bind, if_neg hr0, hsp]; rfl, hinv,
      hk, .inr ⟨z, by rw [hz], Nat.pos_of_ne_zero h0, hzn, by omega, hal⟩⟩

end Inv

/-! ## The heaps a client meets -/

/-- No block of the heap of prologue and epilogue only is allocated. -/
theorem not_allocated_empty (x : Blk) : ¬ Allocated emptyLayout x :=
  fun hx => List.not_mem_nil _ hx.1

theorem kept_empty (h h' : Heap) : Kept emptyLayout h h' :=
  fun _ ⟨_, hb, _⟩ => absurd hb (List.not_mem_nil _)

/-- The heaps a client of `mm.c` meets: the state before `mm_init` has built a heap, with
nothing allocated, or a heap that satisfies the invariant. -/
def Ready (h : Heap) (L : Layout) : Prop := (Fresh h ∧ L = emptyLayout) ∨ Inv h L

/-- `malloc(size)` on a heap the client meets. Before `mm_init` has built a heap, `malloc` runs
it first, and then allocates as on any heap that satisfies the invariant. -/
theorem Ready.malloc_spec {h : Heap} {L : Layout} (hr : Ready h L) {size : Nat}
    (hsz : size ≤ 2 ^ 63 - 24) :
    ∃ h' L' p, malloc h size = some (h', p) ∧ Ready h' L' ∧ Kept L h h' ∧
      ((p = 0 ∧ ∀ x, Allocated L' x ↔ Allocated L x) ∨
        ∃ y, p = y.addr + 8 ∧ 0 < size ∧ ¬ Allocated L y ∧ size + 8 ≤ y.size ∧ Inv h' L' ∧
          ∀ x, Allocated L' x ↔ Allocated L x ∨ x = y) := by
  rcases hr with ⟨hf, rfl⟩ | hi
  · have hnone : ∀ {L'}, (∀ x, ¬ Allocated L' x) → ∀ x, Allocated L' x ↔ Allocated emptyLayout x :=
      fun hal x => iff_of_false (hal x) (not_allocated_empty x)
    obtain ⟨h1, ok, hinit, hpost⟩ := mmInit_spec hf
    cases ok with
    | false =>
      have hm : malloc h size = some (h1, 0) := by simp [malloc, hf.1, hinit]
      rcases hpost with ⟨hf1, -⟩ | ⟨L1, hi1, hal1⟩
      · exact ⟨h1, _, 0, hm, .inl ⟨hf1, rfl⟩, kept_empty h h1, .inl ⟨rfl, fun _ => Iff.rfl⟩⟩
      · exact ⟨h1, L1, 0, hm, .inr hi1, kept_empty h h1, .inl ⟨rfl, hnone hal1⟩⟩
    | true =>
      obtain ⟨L1, hi1, hal1⟩ := hpost.resolve_left fun h => Bool.noConfusion h.2
      have hne : h1.heapStart ≠ 0 := by rw [hi1.start]; omega
      have heq : malloc h size = malloc h1 size := by simp [malloc, hf.1, hinit, hne]
      obtain ⟨h', L', p, hm, hinv, -, hp⟩ := hi1.malloc_spec hsz
      refine ⟨h', L', p, heq.trans hm, .inr hinv, kept_empty h h', ?_⟩
      rcases hp with ⟨rfl, hal⟩ | ⟨y, rfl, h0, -, hysz, hal⟩
      · exact .inl ⟨rfl, fun x => (hal x).trans (hnone hal1 x)⟩
      · exact .inr ⟨y, rfl, h0, not_allocated_empty y, hysz, hinv,
          fun x => (hal x).trans (or_congr_left (hnone hal1 x))⟩
  · obtain ⟨h', L', p, hm, hinv, hk, hp⟩ := hi.malloc_spec hsz
    exact ⟨h', L', p, hm, .inr hinv, hk,
      hp.imp_right fun ⟨y, h1, h2, h3, h4, h5⟩ => ⟨y, h1, h2, h3, h4, hinv, h5⟩⟩

/-! ## Changes to allocated payloads -/

namespace Shape
variable {h : Heap} {L : Layout} (hs : Shape h L)
include hs

/-- The words the invariant reads outside the free lists overlap no allocated payload. -/
theorem not_touches_fixed {x : Nat} (hx : FixedWord h L x) : ¬ Touches L x := by
  rcases hx with rfl | rfl | ⟨b, hb, rfl⟩ | ⟨b, hb, hfree, -, rfl⟩
  · rintro ⟨y, ⟨b, hb, -, h1, h2⟩, h3, h4⟩
    have := hs.bounds hb; have := hs.start; omega
  · exact hs.not_touches_epi
  · exact hs.not_touches_header hb
  · have := hs.bounds hb
    rw [show b.addr + b.size - 8 = b.addr + (b.size - 8) by omega]
    exact hs.not_touches_free hb hfree (by omega)

end Shape

/-- The bytes `[y.addr + 8, y.addr + 8 + n)` of an allocated block `y` of at least `n + 8`
bytes are payload. -/
theorem inUse_payload {L : Layout} {y : Blk} (hy : Allocated L y) {n : Nat} (hn : 8 + n ≤ y.size)
    {x : Nat} (hx1 : y.addr + 8 ≤ x) (hx2 : x < y.addr + 8 + n) : InUse L x :=
  ⟨y, hy.1, hy.2, hx1, by omega⟩

namespace Inv
variable {h : Heap} {L : Layout} (hi : Inv h L)
include hi

/-- A heap that differs from `h` only in bytes of allocated payloads satisfies the invariant with
the same layout. -/
theorem of_mem {h' : Heap} (hsys : Heap.SameSys h h') (hseg : h'.segList = h.segList)
    (hmem : ∀ y, ¬ InUse L y → h'.mem y = h.mem y) : Inv h' L := by
  have hs := hi.toShape
  have hw : ∀ x, ¬ Touches L x → h'.word x = h.word x := fun x hx =>
    Mem.readBytes_congr h.mem x 8 fun i hi =>
      hmem (x + i) fun hu => hx ⟨x + i, hu, by omega, by omega⟩
  have hl : ListsOk h' L :=
    ⟨hs.lists.nodup, hs.lists.bound, hs.lists.free, fun c hc => hseg ▸ hs.lists.head c hc,
      fun c a ha => by rw [hw _ (hs.listed_links ha).2.2.2.1]; exact hs.lists.next c a ha,
      fun c hc a ha => by
        rw [hw _ ((hs.listed_links ha).2.2.2.2 hc).2]; exact hs.lists.prev c hc a ha⟩
  exact { hs.relist hsys (fun x hx => hw x (hs.not_touches_fixed hx)) hl with
    noAdjFree := hi.noAdjFree, covered := hi.covered }

/-- A store of the client inside an allocated payload. -/
theorem store {a : Nat} (ha : InUse L a) (v : Fin 256) :
    Inv { h with mem := Function.update h.mem a v } L :=
  hi.of_mem ⟨rfl, rfl, rfl, rfl, rfl⟩ rfl fun y hy =>
    Function.update_noteq (fun hya => hy (by rw [hya]; exact ha)) _ _

/-- `memcpy(dst, src, n)` into the payload of an allocated block. -/
theorem memcpy {y : Blk} (hy : Allocated L y) {src n : Nat} (hn : 8 + n ≤ y.size) :
    Inv (memcpy h (y.addr + 8) src n) L :=
  hi.of_mem ⟨rfl, rfl, rfl, rfl, rfl⟩ rfl fun x hx => by
    simp only [Malloc.memcpy]
    rw [if_neg fun hxy => hx (inUse_payload hy hn hxy.1 hxy.2)]

/-- `memset(p, c, n)` over the payload of an allocated block. -/
theorem memset {y : Blk} (hy : Allocated L y) {c n : Nat} (hn : 8 + n ≤ y.size) :
    Inv (memset h (y.addr + 8) c n) L :=
  hi.of_mem ⟨rfl, rfl, rfl, rfl, rfl⟩ rfl fun x hx => by
    simp only [Malloc.memset]
    rw [if_neg fun hxy => hx (inUse_payload hy hn hxy.1 hxy.2)]

end Inv

/-! ## `realloc` and `calloc` -/

theorem free_null (h : Heap) : free h 0 = some h := by simp [free]

theorem realloc_zero (h : Heap) (ptr : Nat) : realloc h ptr 0 = (free h ptr).map (·, 0) := by
  simp only [realloc, if_true]
  cases free h ptr <;> rfl

theorem realloc_null (h : Heap) {size : Nat} (h0 : size ≠ 0) : realloc h 0 size = malloc h size := by
  simp [realloc, h0]

theorem realloc_eq (h : Heap) {ptr size : Nat} (h0 : size ≠ 0) (hp : ptr ≠ 0) :
    realloc h ptr size = (malloc h size).bind fun r =>
      if r.2 = 0 then some (r.1, 0)
      else (free (memcpy r.1 r.2 ptr (if size < getPayloadSize r.1 (ptr - 8) then size
        else getPayloadSize r.1 (ptr - 8))) ptr).bind fun h' => some (h', r.2) := by
  simp [realloc, h0, hp, payloadToHeader]

/-- `realloc(p, size)` of the payload `p` of an allocated block `b`, for `size > 0`: it returns
`NULL` and changes no allocated block nor payload, or moves `p` to the payload of a new block,
which overlaps no block allocated before and holds the first `min(size, b.size - 8)` bytes of the
old payload, and frees `b`; the other payloads are kept. -/
theorem Inv.realloc_spec {h : Heap} {L : Layout} (hi : Inv h L) {b : Blk} (hb : Allocated L b)
    {size : Nat} (h0 : size ≠ 0) (hsz : size ≤ 2 ^ 63 - 24) :
    ∃ h' L' q, realloc h (b.addr + 8) size = some (h', q) ∧ Inv h' L' ∧
      ((q = 0 ∧ (∀ x, Allocated L' x ↔ Allocated L x) ∧ Kept L h h') ∨
        ∃ y, q = y.addr + 8 ∧ size + 8 ≤ y.size ∧
          (∀ x, Allocated L' x ↔ (Allocated L x ∧ x ≠ b) ∨ x = y) ∧
          (∀ x, Allocated L x → x.addr + x.size ≤ y.addr ∨ y.addr + y.size ≤ x.addr) ∧
          (∀ i < min size (b.size - 8), h'.mem (q + i) = h.mem (b.addr + 8 + i)) ∧
          ∀ x, Allocated L x → x ≠ b → ∀ z, x.addr + 8 ≤ z → z < x.addr + x.size →
            h'.mem z = h.mem z) := by
  obtain ⟨h1, L1, q, hm, hi1, hk1, hq⟩ := hi.malloc_spec hsz
  rw [realloc_eq h h0 (by omega), hm, Option.some_bind]
  rcases hq with ⟨rfl, hal1⟩ | ⟨y, rfl, -, hyn, hysz, hal1⟩
  · exact ⟨h1, L1, 0, by rw [if_pos rfl], hi1, .inl ⟨rfl, hal1, hk1⟩⟩
  have hb1 : Allocated L1 b := (hal1 b).2 (.inl hb)
  have hy1 : Allocated L1 y := (hal1 y).2 (.inr rfl)
  have hyb : y ≠ b := fun hyb => hyn (hyb ▸ hb)
  -- the blocks allocated before lie apart from the new one
  have hdisj : ∀ x, Allocated L x → x.addr + x.size ≤ y.addr ∨ y.addr + y.size ≤ x.addr :=
    fun x hx => hi1.tiles.disjoint ((hal1 x).2 (.inl hx)).1 hy1.1 fun hxy => hyn (hxy ▸ hx)
  have hbs := hi1.bounds hb1.1
  have hpay : getPayloadSize h1 (b.addr + 8 - 8) = b.size - 8 := by
    rw [Nat.add_sub_cancel, getPayloadSize, hi1.toShape.getSize_eq hb1.1, wsize_eq]
  set cs := if size < b.size - 8 then size else b.size - 8
  have hcs : cs = min size (b.size - 8) := by simp only [cs, min_def]; split_ifs <;> omega
  have hi2 : Inv (Malloc.memcpy h1 (y.addr + 8) (b.addr + 8) cs) L1 :=
    hi1.memcpy hy1 (by rw [hcs]; omega)
  obtain ⟨h3, L3, hfree, hi3, -, hal3, hk3⟩ := hi2.free_spec hb1.1 hb1.2
  refine ⟨h3, L3, y.addr + 8, by rw [if_neg (by omega), hpay, hfree]; rfl, hi3,
    .inr ⟨y, rfl, hysz, fun x => ?_, hdisj, fun i hi => ?_, fun x hx hxb z h1 h2 => ?_⟩⟩
  · rw [hal3 x, hal1 x, or_and_right, and_iff_left_of_imp fun h : x = y => h ▸ hyb]
  · have hy3 : Allocated L3 y := (hal3 y).2 ⟨hy1, hyb⟩
    rw [hk3 _ ⟨y, hy3.1, hy3.2, by omega, by omega⟩]
    simp only [Malloc.memcpy]
    rw [if_pos ⟨by omega, by omega⟩, show b.addr + 8 + (y.addr + 8 + i - (y.addr + 8)) =
      b.addr + 8 + i by omega]
    exact hk1 _ ⟨b, hb.1, hb.2, by omega, by omega⟩
  · have hx1 : Allocated L1 x := (hal1 x).2 (.inl hx)
    have := hdisj x hx
    rw [hk3 z ⟨x, ((hal3 x).2 ⟨hx1, hxb⟩).1, hx.2, h1, h2⟩]
    simp only [Malloc.memcpy]
    rw [if_neg (by omega)]
    exact hk1 z ⟨x, hx.1, hx.2, h1, h2⟩

theorem calloc_eq (h : Heap) {elements size : Nat} (he : elements ≠ 0)
    (hes : elements * size < 2 ^ 64) :
    calloc h elements size = (malloc h (elements * size)).bind fun r =>
      if r.2 = 0 then some (r.1, 0) else some (memset r.1 r.2 0 (elements * size), r.2) := by
  simp only [calloc, Nat.mod_eq_of_lt hes]
  simp [he, Nat.mul_div_cancel_left size (Nat.pos_of_ne_zero he)]

/-- The division round-trip on the wrapped product, `asize / elements != size`, holds exactly
when the true product needs more than 64 bits. -/
theorem mul_mod_div_ne_iff {elements size : Nat} (he : 0 < elements) :
    elements * size % 2 ^ 64 / elements ≠ size ↔ 2 ^ 64 ≤ elements * size := by
  constructor
  · intro hne
    by_contra hlt
    rw [Nat.mod_eq_of_lt (Nat.lt_of_not_le hlt), Nat.mul_div_cancel_left _ he] at hne
    exact hne rfl
  · intro hle heq
    have hmul : size * elements ≤ elements * size % 2 ^ 64 := (Nat.le_div_iff_mul_le he).1 heq.ge
    have hmod := Nat.mod_lt (elements * size) (Nat.two_pow_pos 64)
    rw [Nat.mul_comm] at hmul
    omega

/-- `calloc(elements, size)` returns `NULL` with the heap untouched, without calling `malloc`,
exactly when `elements = 0` or the product overflows; otherwise it is `malloc` of the exact
product followed by zeroing the payload. -/
theorem calloc_eq_null_or_malloc (h : Heap) (elements size : Nat) :
    calloc h elements size =
      if elements = 0 ∨ 2 ^ 64 ≤ elements * size then some (h, 0)
      else (malloc h (elements * size)).bind fun r =>
        if r.2 = 0 then some (r.1, 0) else some (memset r.1 r.2 0 (elements * size), r.2) := by
  by_cases he : elements = 0
  · simp [calloc, he]
  by_cases hov : 2 ^ 64 ≤ elements * size
  · -- the literal is how `simp` writes `2 ^ 64` in the unfolded test
    have hne : ¬ elements * size % 18446744073709551616 / elements = size :=
      (mul_mod_div_ne_iff (Nat.pos_of_ne_zero he)).2 hov
    rw [if_pos (.inr hov)]
    simp [calloc, he, hne]
  · rw [if_neg (by omega), calloc_eq h he (by omega)]

/-- `calloc(elements, size)` for `elements * size ≤ 2 ^ 63 - 24`: the product does not wrap,
and `calloc` is `malloc` of it with the new payload zeroed. -/
theorem Ready.calloc_spec {h : Heap} {L : Layout} (hr : Ready h L) {elements size : Nat}
    (hes : elements * size ≤ 2 ^ 63 - 24) :
    ∃ h' L' p, calloc h elements size = some (h', p) ∧ Ready h' L' ∧ Kept L h h' ∧
      ((p = 0 ∧ ∀ x, Allocated L' x ↔ Allocated L x) ∨
        ∃ y, p = y.addr + 8 ∧ 0 < elements * size ∧ ¬ Allocated L y ∧
          elements * size + 8 ≤ y.size ∧ Inv h' L' ∧ (∀ x, Allocated L' x ↔ Allocated L x ∨ x = y) ∧
          ∀ i < elements * size, h'.mem (p + i) = 0) := by
  by_cases he : elements = 0
  · exact ⟨h, L, 0, by simp [calloc, he], hr, Kept.refl L h, .inl ⟨rfl, fun _ => Iff.rfl⟩⟩
  obtain ⟨h1, L1, q, hm, hr1, hk1, hq⟩ := hr.malloc_spec hes
  rw [calloc_eq h he (by omega), hm, Option.some_bind]
  rcases hq with ⟨rfl, hal1⟩ | ⟨y, rfl, h0, hyn, hysz, hi1, hal1⟩
  · exact ⟨h1, L1, 0, by rw [if_pos rfl], hr1, hk1, .inl ⟨rfl, hal1⟩⟩
  have hy1 : Allocated L1 y := (hal1 y).2 (.inr rfl)
  have hi2 := hi1.memset hy1 (c := 0) (show 8 + elements * size ≤ y.size by omega)
  refine ⟨_, L1, y.addr + 8, by rw [if_neg (by omega)], .inr hi2, fun z hz => ?_,
    .inr ⟨y, rfl, h0, hyn, hysz, hi2, hal1, fun i hi => ?_⟩⟩
  · obtain ⟨x, hx, hxa, h1, h2⟩ := hz
    have := hi1.tiles.disjoint ((hal1 x).2 (.inl ⟨hx, hxa⟩)).1 hy1.1
      fun hxy => hyn (hxy ▸ ⟨hx, hxa⟩)
    simp only [Malloc.memset]
    rw [if_neg (by omega)]
    exact hk1 z ⟨x, hx, hxa, h1, h2⟩
  · simp only [Malloc.memset]
    rw [if_pos ⟨by omega, by omega⟩]
    rfl

end SystemsLabs.Malloc
