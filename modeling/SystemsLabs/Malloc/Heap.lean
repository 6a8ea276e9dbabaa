import SystemsLabs.Malloc.SizeClass

/-!
# The allocator of `mm.c`, function by function

A shallow embedding of the segregated-fit allocator of the malloc lab. A `block_t *` is its
header address, `NULL` is `0`, and the globals `heap_start` and `seg_list` live in `Heap`
together with memlib's heap bounds. Each C function is one definition under its own name:
reads go through `Heap.word`, stores through `Heap.store`, and a result of `none` means that
the C code has no defined result (a shift by 64 in `find_seg_list_class`, or a list walk that
never ends).

The free-list fields of `block_t` sit in the payload: `next` at `block + 8`, `prev` at
`block + 16`. For a 16-byte block `prev` would be the next block's header, which is why
`insertBlockLIFO` and `fixFreeList` never write it for such blocks.

memlib is not part of the source. `memSbrk` follows the spec's growth primitive: it extends the
heap contiguously or fails, as the oracle `sbrkOk` decides call by call, and never past the
user address space (`2 ^ 63`).
-/

namespace SystemsLabs.Malloc

/-- The allocator's globals and the memory system. -/
structure Heap where
  mem : Mem
  /-- `heap_start`; `0` until `mm_init` has run. -/
  heapStart : Nat
  /-- `seg_list[0 .. 13]`. -/
  segList : Nat → Nat
  /-- `mem_heap_lo()`. -/
  lo : Nat
  /-- `mem_heap_hi() + 1`, the break. -/
  brk : Nat
  /-- Whether the `n`-th call of `mem_sbrk` succeeds. -/
  sbrkOk : Nat → Bool
  /-- Calls of `mem_sbrk` so far. -/
  sbrkCalls : Nat

namespace Heap

/-- The word at `a`. -/
def word (h : Heap) (a : Nat) : Nat := h.mem.read a

/-- Store `v` at `a`. -/
def store (h : Heap) (a v : Nat) : Heap := { h with mem := h.mem.write a v }

/-- `seg_list[c] = p`. -/
def setSegList (h : Heap) (c p : Nat) : Heap := { h with segList := Function.update h.segList c p }

/-- `h'` has the globals `heap_start`, memlib's bounds and the `mem_sbrk` oracle of `h`: it
differs at most in memory and in `seg_list`. -/
structure SameSys (h h' : Heap) : Prop where
  heapStart : h'.heapStart = h.heapStart
  lo : h'.lo = h.lo
  brk : h'.brk = h.brk
  sbrkOk : h'.sbrkOk = h.sbrkOk
  sbrkCalls : h'.sbrkCalls = h.sbrkCalls

theorem SameSys.refl (h : Heap) : SameSys h h := ⟨rfl, rfl, rfl, rfl, rfl⟩

theorem SameSys.trans {h₁ h₂ h₃ : Heap} (h12 : SameSys h₁ h₂) (h23 : SameSys h₂ h₃) :
    SameSys h₁ h₃ :=
  ⟨h23.1.trans h12.1, h23.2.trans h12.2, h23.3.trans h12.3, h23.4.trans h12.4, h23.5.trans h12.5⟩

theorem SameSys.store (h : Heap) (a v : Nat) : SameSys h (h.store a v) := ⟨rfl, rfl, rfl, rfl, rfl⟩

theorem SameSys.setSegList (h : Heap) (c p : Nat) : SameSys h (h.setSegList c p) :=
  ⟨rfl, rfl, rfl, rfl, rfl⟩

@[simp] theorem store_segList (h : Heap) (a v : Nat) : (h.store a v).segList = h.segList := rfl
@[simp] theorem setSegList_segList (h : Heap) (c p : Nat) :
    (h.setSegList c p).segList = Function.update h.segList c p := rfl
@[simp] theorem word_setSegList (h : Heap) (c p x : Nat) : (h.setSegList c p).word x = h.word x :=
  rfl
@[simp] theorem mem_setSegList (h : Heap) (c p : Nat) : (h.setSegList c p).mem = h.mem := rfl

@[simp] theorem word_store_self (h : Heap) (a v : Nat) : (h.store a v).word a = v % 2 ^ 64 :=
  h.mem.read_write_self a v

@[simp] theorem store_word_self (h : Heap) (a : Nat) : h.store a (h.word a) = h := by
  simp [store, word]

/-- A store seen through an aligned load. -/
theorem word_store (h : Heap) {a x : Nat} (v : Nat) (ha : a % 8 = 0) (hx : x % 8 = 0) :
    (h.store a v).word x = if x = a then v % 2 ^ 64 else h.word x := by
  split_ifs with hxa
  · subst hxa; exact h.word_store_self x v
  · exact h.mem.read_write_of_ne x a v hx ha hxa

theorem mem_store_of_not_mem (h : Heap) {a y : Nat} (v : Nat) (hy : ¬ (a ≤ y ∧ y < a + 8)) :
    (h.store a v).mem y = h.mem y := if_neg hy

end Heap

/-- `mem_sbrk(incr)`: the old break, or `none` for `(void *)-1`. -/
def memSbrk (h : Heap) (incr : Nat) : Option Nat × Heap :=
  let h' := { h with sbrkCalls := h.sbrkCalls + 1 }
  if h.sbrkOk h.sbrkCalls ∧ h.brk + incr ≤ 2 ^ 63 then (some h.brk, { h' with brk := h.brk + incr })
  else (none, h')

/-- A walk along a free list that runs this long has met a node twice (a pointer is one of
`2 ^ 64` values) and cycles for ever. -/
def listFuel : Nat := 2 ^ 64 + 1

/-! ## Short helpers -/

section Helpers
variable (h : Heap)

def getSize (block : Nat) : Nat := extractSize (h.word block)
def getAlloc (block : Nat) : Bool := extractAlloc (h.word block)
def getPreAlloc (block : Nat) : Bool := extractPreAlloc (h.word block)
def getPreMin (block : Nat) : Bool := extractPreMin (h.word block)

def payloadToHeader (bp : Nat) : Nat := bp - wsize
def headerToPayload (block : Nat) : Nat := block + wsize
def headerToFooter (block : Nat) : Nat := block + wsize + getSize h block - dsize
def footerToHeader (footer : Nat) : Nat := footer + wsize - extractSize (h.word footer)
def getPayloadSize (block : Nat) : Nat := getSize h block - wsize
def findNext (block : Nat) : Nat := block + getSize h block
def findPrevFooter (block : Nat) : Nat := block - wsize
def findPrev (block : Nat) : Nat := footerToHeader h (findPrevFooter block)
def findMinPrev (block : Nat) : Nat := block - dsize

/-- Address of `block->data.free_list.next`. -/
def nextOf (block : Nat) : Nat := block + 8
/-- Address of `block->data.free_list.prev`. -/
def prevOf (block : Nat) : Nat := block + 16

def writeEpilogue (block : Nat) : Heap := h.store block (pack 0 false false true)

def writeBlock (block size : Nat) (preMin preAlloc alloc writeFooter : Bool) : Heap :=
  let h := h.store block (pack size preMin preAlloc alloc)
  if writeFooter ∧ size ≠ minBlockSize then
    h.store (headerToFooter h block) (pack size preMin preAlloc alloc)
  else h

def setNextBlockPreAllocPreMin (block : Nat) (nextPreMin nextPreAlloc : Bool) : Heap :=
  let blockNext := findNext h block
  writeBlock h blockNext (getSize h blockNext) nextPreMin nextPreAlloc (getAlloc h blockNext) false

end Helpers

/-! ## Free lists -/

def insertBlockLIFO (h : Heap) (block : Nat) : Option Heap := do
  let size := getSize h block
  let cls ← findSegListClass size
  let firstBlock := h.segList cls
  let h := if size ≠ minBlockSize ∧ firstBlock ≠ 0 then h.store (prevOf firstBlock) block else h
  let h := h.store (nextOf block) firstBlock
  let h := if size ≠ minBlockSize then h.store (prevOf block) 0 else h
  return h.setSegList cls block

/-- The scan of `fix_free_list` for a 16-byte block: the element whose `next` is `block`, or
`0` at the end of the list. -/
def scanPrev (h : Heap) (block : Nat) : Nat → Nat → Option Nat
  | 0, _ => none
  | fuel + 1, temp =>
    if temp = 0 then some 0
    else if h.word (nextOf temp) = block then some temp
    else scanPrev h block fuel (h.word (nextOf temp))

def fixFreeList (h : Heap) (block : Nat) : Option Heap := do
  let size := getSize h block
  let cls ← findSegListClass size
  if size ≠ minBlockSize then
    let prev := h.word (prevOf block)
    let nextv := h.word (nextOf block)
    let h :=
      if prev = 0 then
        let h := if nextv ≠ 0 then h.store (prevOf nextv) 0 else h
        h.setSegList cls nextv
      else
        let h := if nextv ≠ 0 then h.store (prevOf nextv) prev else h
        h.store (nextOf prev) nextv
    let h := h.store (nextOf block) 0
    return h.store (prevOf block) 0
  else
    let nextv := h.word (nextOf block)
    let prev ← scanPrev h block listFuel (h.segList cls)
    if prev ≠ 0 then return h.store (nextOf prev) nextv
    else return h.setSegList cls nextv

/-! ## Coalescing -/

def handleCase1 (h : Heap) (block size : Nat) : Heap :=
  if size = minBlockSize then setNextBlockPreAllocPreMin h block true false
  else if size > minBlockSize then setNextBlockPreAllocPreMin h block false false
  else h

def handleCase2 (h : Heap) (block nextBlock size : Nat) (preMin preFlag : Bool) : Option Heap := do
  let h ← fixFreeList h nextBlock
  let size := size + getSize h nextBlock
  let h := writeBlock h block size preMin preFlag false true
  return setNextBlockPreAllocPreMin h block false false

def handleCase3 (h : Heap) (preBlock size : Nat) (preMin : Bool) : Option Heap := do
  let h ← fixFreeList h preBlock
  let size := size + getSize h preBlock
  let h := writeBlock h preBlock size preMin true false true
  return setNextBlockPreAllocPreMin h preBlock false false

def handleCase4 (h : Heap) (preBlock nextBlock size : Nat) (preMin : Bool) : Option Heap := do
  let h ← fixFreeList h preBlock
  let h ← fixFreeList h nextBlock
  let size := size + (getSize h preBlock + getSize h nextBlock)
  let h := writeBlock h preBlock size preMin true false true
  return setNextBlockPreAllocPreMin h preBlock false false

/-- `coalesce_block(block)`: the heap after it and the block it returns. -/
def coalesceBlock (h : Heap) (block : Nat) : Option (Heap × Nat) := do
  let preFlag := getPreAlloc h block
  let nextFlag := getAlloc h (findNext h block)
  let size := getSize h block
  let nextBlock := findNext h block
  let preBlock :=
    if !preFlag then (if getPreMin h block then findMinPrev block else findPrev h block) else 0
  let r ←
    if preFlag ∧ nextFlag then pure (handleCase1 h block size, block)
    else if preFlag ∧ !nextFlag then
      (·, block) <$> handleCase2 h block nextBlock size (getPreMin h block) preFlag
    else if !preFlag ∧ nextFlag then
      (·, preBlock) <$> handleCase3 h preBlock size (getPreMin h preBlock)
    else (·, preBlock) <$> handleCase4 h preBlock nextBlock size (getPreMin h preBlock)
  let h ← insertBlockLIFO r.1 r.2
  return (h, r.2)

/-! ## Growing, splitting, searching -/

/-- `extend_heap(size)`: the heap after it and the new (coalesced) block, `0` on failure. -/
def extendHeap (h : Heap) (size : Nat) : Option (Heap × Nat) :=
  let size := roundUp size dsize
  match memSbrk h size with
  | (none, h) => some (h, 0)
  | (some bp, h) =>
    let block := payloadToHeader bp
    let preMin := getPreMin h block
    let preAlloc := getPreAlloc h block
    let h := writeBlock h block size preMin preAlloc false true
    let blockNext := findNext h block
    let h := writeEpilogue h blockNext
    coalesceBlock h block

def splitBlock (h : Heap) (block asize : Nat) : Option Heap := do
  let blockSize := getSize h block
  let h ← fixFreeList h block
  if blockSize - asize ≥ minBlockSize then
    let preMin := getPreMin h block
    let h := writeBlock h block asize preMin true true false
    let nextPreMin := decide (asize = minBlockSize)
    let blockNext := findNext h block
    let h := writeBlock h blockNext (blockSize - asize) nextPreMin true false true
    let nextNextPreMin := decide (blockSize - asize = minBlockSize)
    let h := setNextBlockPreAllocPreMin h blockNext nextNextPreMin false
    let r ← coalesceBlock h blockNext
    return r.1
  else
    let preMin := getPreMin h block
    let h := writeBlock h block blockSize preMin true true false
    let nextPreMin := getPreMin h (findNext h block)
    return setNextBlockPreAllocPreMin h block nextPreMin true

/-- The inner loop of `find_fit` over one list: the first block of size `≥ asize`, or `0`. -/
def fitInList (h : Heap) (asize : Nat) : Nat → Nat → Option Nat
  | 0, _ => none
  | fuel + 1, classRoot =>
    if classRoot = 0 then some 0
    else if getSize h classRoot ≥ asize then some classRoot
    else fitInList h asize fuel (h.word (nextOf classRoot))

/-- The outer loop of `find_fit` over the `k` lists from `cls` on. -/
def fitFrom (h : Heap) (asize : Nat) : Nat → Nat → Option Nat
  | 0, _ => some 0
  | k + 1, cls => do
    let r ← fitInList h asize listFuel (h.segList cls)
    if r ≠ 0 then some r else fitFrom h asize k (cls + 1)

def findFit (h : Heap) (asize : Nat) : Option Nat := do
  let cls ← findSegListClass asize
  fitFrom h asize (MAX_SEG_LIST_LENGTH - cls) cls

/-! ## The interface -/

/-- `mm_init()`: the heap after it and whether it succeeded. -/
def mmInit (h : Heap) : Option (Heap × Bool) :=
  match memSbrk h (2 * wsize) with
  | (none, h) => some (h, false)
  | (some start, h) =>
    let h := h.store start (pack 0 false true true)
    let h := h.store (start + wsize) (pack 0 false true true)
    let h := { h with heapStart := start + wsize, segList := fun _ => 0 }
    (extendHeap h chunksize).map fun r => (r.1, r.2 ≠ 0)

/-- `malloc(size)`: the heap after it and the payload pointer, `0` for `NULL`. -/
def malloc (h : Heap) (size : Nat) : Option (Heap × Nat) := do
  let r ← if h.heapStart = 0 then mmInit h else pure (h, true)
  let h := r.1
  if !r.2 then return (h, 0)
  if size = 0 then return (h, 0)
  let asize := adjustedSize size
  let block ← findFit h asize
  let r ← if block = 0 then extendHeap h (Malloc.max asize chunksize) else pure (h, block)
  if r.2 = 0 then return (r.1, 0)
  let h ← splitBlock r.1 r.2 asize
  return (h, headerToPayload r.2)

def free (h : Heap) (bp : Nat) : Option Heap := do
  if bp = 0 then return h
  let block := payloadToHeader bp
  let size := getSize h block
  let preAlloc := getPreAlloc h block
  let preMin := getPreMin h block
  let h := writeBlock h block size preMin preAlloc false (size ≠ minBlockSize)
  let h :=
    if size ≠ minBlockSize then setNextBlockPreAllocPreMin h block false false
    else setNextBlockPreAllocPreMin h block true false
  let r ← coalesceBlock h block
  return r.1

/-- `memcpy(dst, src, n)` on non-overlapping ranges. -/
def memcpy (h : Heap) (dst src n : Nat) : Heap :=
  { h with mem := fun x => if dst ≤ x ∧ x < dst + n then h.mem (src + (x - dst)) else h.mem x }

/-- `memset(bp, c, n)`. -/
def memset (h : Heap) (bp c n : Nat) : Heap :=
  { h with mem := fun x => if bp ≤ x ∧ x < bp + n then ⟨c % 256, Nat.mod_lt _ (by decide)⟩ else h.mem x }

def realloc (h : Heap) (ptr size : Nat) : Option (Heap × Nat) := do
  let block := payloadToHeader ptr
  if size = 0 then return (← free h ptr, 0)
  if ptr = 0 then return ← malloc h size
  let r ← malloc h size
  let newptr := r.2
  if newptr = 0 then return (r.1, 0)
  let copysize := getPayloadSize r.1 block
  let copysize := if size < copysize then size else copysize
  let h := memcpy r.1 newptr ptr copysize
  let h ← free h ptr
  return (h, newptr)

def calloc (h : Heap) (elements size : Nat) : Option (Heap × Nat) := do
  let asize := elements * size % 2 ^ 64
  if elements = 0 then return (h, 0)
  if asize / elements ≠ size then return (h, 0)
  let r ← malloc h asize
  if r.2 = 0 then return (r.1, 0)
  return (memset r.1 r.2 0 asize, r.2)

end SystemsLabs.Malloc
