import SystemsLabs.Malloc.Api

/-!
# The allocator as its client sees it

A client of `mm.c` sees a map from the payload pointers it holds to the bytes it reads there
(`Live`). From `mm_init` of a fresh heap on, it calls `malloc`, `free`, `realloc` and `calloc`
with pointers it holds or `NULL` and sizes up to `2 ^ 63 - 24`, and stores bytes inside its
payloads (`Call`, `Call.Valid`). Whether each call of `mem_sbrk` succeeds is the heap's
`sbrkOk`, in any pattern. `Reachable` collects the heaps and views such a client reaches.

`Call.Spec` is the allocator's contract over views: `malloc` gives `NULL` or a fresh, aligned
payload inside the heap that overlaps no live one (`FreshIn`), `free` drops the pointer,
`realloc` moves the first bytes, `calloc` gives zeros. `Good` relates a heap to a view: the heap
is one a client meets (`Ready`), the live payloads are those of its allocated blocks
(`Tracks`), and it holds the bytes the client sees (`Holds`). Each valid call returns, meets the
contract and keeps `Good` (`Good.step`), and so every run does (`Reachable.good`).
-/

namespace SystemsLabs.Malloc

/-! ## The client's view -/

/-- The client's view of the heap: the bytes it reads at each payload pointer it holds. -/
abbrev Live := Nat → Option (List (Fin 256))

/-- The `n` bytes at `p`. -/
def payload (h : Heap) (p n : Nat) : List (Fin 256) := (List.range n).map fun i => h.mem (p + i)

@[simp] theorem length_payload (h : Heap) (p n : Nat) : (payload h p n).length = n := by
  simp [payload]

theorem payload_congr {h h' : Heap} {p q n : Nat} (hm : ∀ i < n, h'.mem (q + i) = h.mem (p + i)) :
    payload h' q n = payload h p n :=
  List.map_congr_left fun i hi => hm i (List.mem_range.1 hi)

theorem take_payload (h : Heap) (p m n : Nat) : (payload h p n).take m = payload h p (min m n) := by
  simp only [payload, ← List.map_take, List.take_range]

theorem payload_eq_replicate {h : Heap} {p n : Nat} (hz : ∀ i < n, h.mem (p + i) = 0) :
    payload h p n = List.replicate n 0 :=
  List.eq_replicate_iff.2 ⟨length_payload h p n, fun b hb => by
    obtain ⟨i, hi, rfl⟩ := List.mem_map.1 hb
    exact hz i (List.mem_range.1 hi)⟩

/-- A store of one byte inside the `n` bytes at `p`. -/
theorem payload_store (h : Heap) (p n i : Nat) (v : Fin 256) :
    payload { h with mem := Function.update h.mem (p + i) v } p n = (payload h p n).set i v := by
  refine List.ext_getElem (by simp) fun j _ _ => ?_
  simp only [payload, List.getElem_set, List.getElem_map, List.getElem_range, Function.update_apply,
    Nat.add_left_cancel_iff]
  by_cases hij : i = j
  · simp [hij]
  · simp [hij, Ne.symm hij]

/-- `free(p)` in the view: `p` is no longer live; `free(NULL)` changes nothing. -/
def Live.free (A : Live) (p : Nat) : Live := if p = 0 then A else Function.update A p none

/-- A pointer `r` returned by an allocation of `n` bytes: live from now on, with the bytes the
heap holds there, unless it is `NULL`. -/
def Live.alloc (A : Live) (h : Heap) (r n : Nat) : Live :=
  if r = 0 then A else Function.update A r (some (payload h r n))

/-! ## Calls -/

/-- A call of the client: an entry point of `mm.c`, or a store of one byte into a payload. -/
inductive Call
  | malloc (size : Nat)
  | free (ptr : Nat)
  | realloc (ptr size : Nat)
  | calloc (elements size : Nat)
  | store (ptr i : Nat) (v : Fin 256)

/-- The calls a client may make in the view `A`: with pointers it holds or `NULL`, sizes up to
`2 ^ 63 - 24`, and stores inside its payloads. -/
def Call.Valid (A : Live) : Call → Prop
  | .malloc size => size ≤ 2 ^ 63 - 24
  | .free ptr => ptr = 0 ∨ A ptr ≠ none
  | .realloc ptr size => (ptr = 0 ∨ A ptr ≠ none) ∧ size ≤ 2 ^ 63 - 24
  | .calloc elements size => elements * size ≤ 2 ^ 63 - 24
  | .store ptr i _ => ∃ bytes, A ptr = some bytes ∧ i < bytes.length

/-- A call on the heap: the heap after it and the pointer it returns (`0` for `free` and a
store). -/
def Call.exec : Call → Heap → Option (Heap × Nat)
  | .malloc size, h => Malloc.malloc h size
  | .free ptr, h => (Malloc.free h ptr).map (·, 0)
  | .realloc ptr size, h => Malloc.realloc h ptr size
  | .calloc elements size, h => Malloc.calloc h elements size
  | .store ptr i v, h => some ({ h with mem := Function.update h.mem (ptr + i) v }, 0)

/-- The view after a call that returned `r` and left the heap `h'`. -/
def Call.view : Call → Live → Heap → Nat → Live
  | .malloc size, A, h', r => A.alloc h' r size
  | .free ptr, A, _, _ => A.free ptr
  | .realloc ptr size, A, h', r =>
    if size = 0 then A.free ptr
    else if r = 0 then A else Function.update (A.free ptr) r (some (payload h' r size))
  | .calloc elements size, A, h', r => A.alloc h' r (elements * size)
  | .store ptr i v, A, _, _ => Function.update A ptr ((A ptr).map (·.set i v))

/-! ## The contract -/

/-- `p` is a fresh payload of `n` bytes: not live, 16-byte aligned, inside the heap `[lo, brk)`,
and overlapping no live payload. -/
def FreshIn (A : Live) (lo brk p n : Nat) : Prop :=
  A p = none ∧ p % 16 = 0 ∧ lo ≤ p ∧ p + n ≤ brk ∧
    ∀ q bytes, A q = some bytes → p + n ≤ q ∨ q + bytes.length ≤ p

/-- An allocation of `n` bytes that returned `r`: `NULL` with the view unchanged, or, for
`n > 0`, a fresh payload of `n` bytes. -/
def Allocates (A : Live) (lo brk n r : Nat) (A' : Live) : Prop :=
  (r = 0 ∧ A' = A) ∨
    (0 < n ∧ FreshIn A lo brk r n ∧ ∃ bytes : List (Fin 256), bytes.length = n ∧
      A' = Function.update A r (some bytes))

/-- The allocator's contract: what a call that returned `r` may turn the view `A` into, where
`[lo, brk)` is the heap after the call. -/
def Call.Spec : Call → Live → Nat → Nat → Nat → Live → Prop
  | .malloc size, A, lo, brk, r, A' => Allocates A lo brk size r A'
  | .free ptr, A, _, _, r, A' => r = 0 ∧ A' = A.free ptr
  | .realloc ptr size, A, lo, brk, r, A' =>
    if size = 0 then r = 0 ∧ A' = A.free ptr
    else if ptr = 0 then Allocates A lo brk size r A'
    else (r = 0 ∧ A' = A) ∨
      (FreshIn A lo brk r size ∧ ∃ bytes : List (Fin 256), bytes.length = size ∧
        bytes.take ((A ptr).getD []).length = ((A ptr).getD []).take size ∧
        A' = Function.update (A.free ptr) r (some bytes))
  | .calloc elements size, A, lo, brk, r, A' =>
    (r = 0 ∧ A' = A) ∨
      (0 < elements * size ∧ FreshIn A lo brk r (elements * size) ∧
        A' = Function.update A r (some (List.replicate (elements * size) 0)))
  | .store ptr i v, A, _, _, r, A' => r = 0 ∧ A' = Function.update A ptr ((A ptr).map (·.set i v))

/-! ## Heaps that implement a view -/

/-- The live payloads are those of the blocks `S` holds allocated, one each, inside its block. -/
structure Tracks (S : Blk → Prop) (A : Live) : Prop where
  live : ∀ p bytes, A p = some bytes → ∃ y, S y ∧ p = y.addr + 8 ∧ bytes.length + 8 ≤ y.size
  owned : ∀ y, S y → A (y.addr + 8) ≠ none

/-- The heap holds the bytes the client sees. -/
def Holds (h : Heap) (A : Live) : Prop :=
  ∀ p bytes, A p = some bytes → payload h p bytes.length = bytes

/-- The heap `h` implements the view `A`. -/
def Good (h : Heap) (A : Live) : Prop :=
  ∃ L, Ready h L ∧ Tracks (Allocated L) A ∧ Holds h A

/-- The heaps and views a client reaches from `mm_init` of a fresh heap. -/
inductive Reachable : Heap → Live → Prop
  | init {h h' : Heap} {ok : Bool} : Fresh h → mmInit h = some (h', ok) →
      Reachable h' fun _ => none
  | step {h h' : Heap} {A : Live} {c : Call} {r : Nat} : Reachable h A → c.Valid A →
      c.exec h = some (h', r) → Reachable h' (c.view A h' r)

section
variable {S : Blk → Prop} {A : Live}

namespace Tracks

theorem congr (ht : Tracks S A) {S' : Blk → Prop} (hS : ∀ x, S' x ↔ S x) : Tracks S' A :=
  ⟨fun p bytes hp => let ⟨y, hy, h1, h2⟩ := ht.live p bytes hp; ⟨y, (hS y).2 hy, h1, h2⟩,
    fun y hy => ht.owned y ((hS y).1 hy)⟩

/-- Dropping the payload of `b` from the view drops `b` from the blocks. -/
theorem erase (ht : Tracks S A) {b : Blk} (haddr : ∀ x, S x → x ≠ b → x.addr ≠ b.addr) :
    Tracks (fun x => S x ∧ x ≠ b) (Function.update A (b.addr + 8) none) := by
  refine ⟨fun p bytes hp => ?_, fun x hx => ?_⟩
  · have hpb : p ≠ b.addr + 8 := by rintro rfl; simp at hp
    rw [Function.update_noteq hpb] at hp
    obtain ⟨y, hy, rfl, hsz⟩ := ht.live p bytes hp
    exact ⟨y, ⟨hy, by rintro rfl; exact hpb rfl⟩, rfl, hsz⟩
  · rw [Function.update_noteq (by have := haddr x hx.1 hx.2; omega)]
    exact ht.owned x hx.1

/-- Adding the payload of a new block `y` to the view adds `y` to the blocks. -/
theorem insert (ht : Tracks S A) {y : Blk} (haddr : ∀ x, S x → x.addr ≠ y.addr)
    {bytes : List (Fin 256)} (hsz : bytes.length + 8 ≤ y.size) :
    Tracks (fun x => S x ∨ x = y) (Function.update A (y.addr + 8) (some bytes)) := by
  refine ⟨fun p bs hp => ?_, fun x hx => ?_⟩
  · by_cases hpy : p = y.addr + 8
    · subst hpy
      obtain rfl : bytes = bs := by simpa using hp
      exact ⟨y, .inr rfl, rfl, hsz⟩
    · rw [Function.update_noteq hpy] at hp
      obtain ⟨x, hx, rfl, hxs⟩ := ht.live p bs hp
      exact ⟨x, .inl hx, rfl, hxs⟩
  · rcases hx with hx | rfl
    · rw [Function.update_noteq (by have := haddr x hx; omega)]
      exact ht.owned x hx
    · simp

/-- Changing the bytes of a live payload, not its length, keeps the blocks. -/
theorem set (ht : Tracks S A) {p : Nat} {bytes bytes' : List (Fin 256)} (hp : A p = some bytes)
    (hlen : bytes'.length = bytes.length) : Tracks S (Function.update A p (some bytes')) := by
  refine ⟨fun q bs hq => ?_, fun x hx => ?_⟩
  · by_cases hqp : q = p
    · subst hqp
      obtain rfl : bytes' = bs := by simpa using hq
      rw [hlen]; exact ht.live q bytes hp
    · exact ht.live q bs (by rwa [Function.update_noteq hqp] at hq)
  · by_cases hxp : x.addr + 8 = p
    · rw [hxp]; simp
    · rw [Function.update_noteq hxp]; exact ht.owned x hx

/-- Each byte of a live payload is in use. -/
theorem inUse {L : Layout} (ht : Tracks (Allocated L) A) {p : Nat} {bytes : List (Fin 256)}
    (hp : A p = some bytes) {i : Nat} (hi : i < bytes.length) : InUse L (p + i) := by
  obtain ⟨y, hy, rfl, hsz⟩ := ht.live p bytes hp
  exact inUse_payload hy (n := bytes.length) (by omega) (by omega) (by omega)

/-- A block of a heap that satisfies the invariant, apart from every block of `S`, holds a
fresh payload. -/
theorem freshIn (ht : Tracks S A) {h : Heap} {L : Layout} (hi : Inv h L) {y : Blk}
    (hy : y ∈ L.blocks) {n : Nat} (hn : n + 8 ≤ y.size)
    (hdisj : ∀ x, S x → x.addr + x.size ≤ y.addr ∨ y.addr + y.size ≤ x.addr) :
    FreshIn A h.lo h.brk (y.addr + 8) n := by
  have hb := hi.bounds hy
  have := hi.addr_mod hy
  have := hi.start
  unfold Heap.epi at hb
  refine ⟨Option.eq_none_iff_forall_not_mem.2 fun bytes hp => ?_, by omega, by omega, by omega,
    fun q bytes hq => ?_⟩
  · obtain ⟨x, hx, hxy, hsz⟩ := ht.live _ bytes hp
    have := hdisj x hx; omega
  · obtain ⟨x, hx, rfl, hsz⟩ := ht.live q bytes hq
    have := hdisj x hx; omega

end Tracks

namespace Holds
variable {h : Heap}

theorem erase (hh : Holds h A) (p : Nat) : Holds h (Function.update A p none) := fun q bytes hq => by
  by_cases hqp : q = p
  · subst hqp; simp at hq
  · exact hh q bytes (by rwa [Function.update_noteq hqp] at hq)

theorem insert (hh : Holds h A) (r n : Nat) :
    Holds h (Function.update A r (some (payload h r n))) := fun q bytes hq => by
  by_cases hqr : q = r
  · subst hqr
    obtain rfl : payload h q n = bytes := by simpa using hq
    simp
  · exact hh q bytes (by rwa [Function.update_noteq hqr] at hq)

/-- The view reads only bytes in use. -/
theorem kept (hh : Holds h A) {L : Layout} (ht : Tracks (Allocated L) A) {h' : Heap}
    (hk : Kept L h h') : Holds h' A :=
  fun p bytes hp => (payload_congr fun _ hi => hk _ (ht.inUse hp hi)).trans (hh p bytes hp)

end Holds

end

/-! ## One call -/

section
variable {h : Heap} {A : Live}

/-- A heap with an allocated block satisfies the invariant. -/
theorem Ready.inv {L : Layout} (hr : Ready h L) {y : Blk} (hy : Allocated L y) : Inv h L :=
  hr.resolve_left fun ⟨_, hL⟩ => not_allocated_empty y (hL ▸ hy)

/-- Distinct allocated blocks start at distinct addresses. -/
theorem Inv.addr_ne {L : Layout} (hi : Inv h L) {x y : Blk} (hx : x ∈ L.blocks) (hy : y ∈ L.blocks)
    (hxy : x ≠ y) : x.addr ≠ y.addr :=
  fun he => hxy (hi.tiles.eq_of_addr_eq hx hy he)

/-- A new allocated block: its payload is fresh, and the view with it is implemented. -/
theorem Good.alloc {L : Layout} (ht : Tracks (Allocated L) A) (hh : Holds h A) {h' : Heap}
    {L' : Layout} {y : Blk} {n : Nat} (hi' : Inv h' L') (hk : Kept L h h')
    (hal : ∀ x, Allocated L' x ↔ Allocated L x ∨ x = y) (hyn : ¬ Allocated L y)
    (hn : n + 8 ≤ y.size) :
    FreshIn A h'.lo h'.brk (y.addr + 8) n ∧ Good h' (A.alloc h' (y.addr + 8) n) := by
  have hy' : Allocated L' y := (hal y).2 (.inr rfl)
  have hne : ∀ x, Allocated L x → x ≠ y := fun x hx hxy => hyn (hxy ▸ hx)
  have hdisj : ∀ x, Allocated L x → x.addr + x.size ≤ y.addr ∨ y.addr + y.size ≤ x.addr :=
    fun x hx => hi'.tiles.disjoint ((hal x).2 (.inl hx)).1 hy'.1 (hne x hx)
  rw [Live.alloc, if_neg (by omega)]
  exact ⟨ht.freshIn hi' hy'.1 hn hdisj, L', .inr hi',
    (ht.insert (fun x hx => hi'.addr_ne ((hal x).2 (.inl hx)).1 hy'.1 (hne x hx))
      (by rw [length_payload]; exact hn)).congr hal,
    (hh.kept ht hk).insert _ _⟩

/-- `malloc(size)`. -/
theorem Good.malloc (hg : Good h A) {size : Nat} (hsz : size ≤ 2 ^ 63 - 24) :
    ∃ h' r, malloc h size = some (h', r) ∧ Allocates A h'.lo h'.brk size r (A.alloc h' r size) ∧
      Good h' (A.alloc h' r size) := by
  obtain ⟨L, hr, ht, hh⟩ := hg
  obtain ⟨h', L', p, hm, hr', hk, hp⟩ := hr.malloc_spec hsz
  refine ⟨h', p, hm, ?_⟩
  rcases hp with ⟨rfl, hal⟩ | ⟨y, rfl, h0, hyn, hysz, hi', hal⟩
  · rw [Live.alloc, if_pos rfl]
    exact ⟨.inl ⟨rfl, rfl⟩, L', hr', ht.congr hal, hh.kept ht hk⟩
  · obtain ⟨hfresh, hgood⟩ := Good.alloc ht hh hi' hk hal hyn hysz
    refine ⟨.inr ⟨h0, hfresh, payload h' (y.addr + 8) size, length_payload h' _ size, ?_⟩, hgood⟩
    rw [Live.alloc, if_neg (by omega)]

/-- `free(ptr)`. -/
theorem Good.free (hg : Good h A) {ptr : Nat} (hp : ptr = 0 ∨ A ptr ≠ none) :
    ∃ h', free h ptr = some h' ∧ Good h' (A.free ptr) := by
  rcases hp with rfl | hp
  · exact ⟨h, free_null h, by rwa [Live.free, if_pos rfl]⟩
  obtain ⟨L, hr, ht, hh⟩ := hg
  obtain ⟨bytes, hb⟩ := Option.ne_none_iff_exists'.1 hp
  obtain ⟨b, hbL, rfl, -⟩ := ht.live _ bytes hb
  have hi := hr.inv hbL
  obtain ⟨h', L', hfree, hi', -, hal, hk⟩ := hi.free_spec hbL.1 hbL.2
  have ht' := (ht.erase fun x hx => hi.addr_ne hx.1 hbL.1).congr hal
  refine ⟨h', hfree, ?_⟩
  rw [Live.free, if_neg (by omega)]
  exact ⟨L', .inr hi', ht', (hh.erase _).kept ht' hk⟩

/-- `calloc(elements, size)`. -/
theorem Good.calloc (hg : Good h A) {elements size : Nat} (hes : elements * size ≤ 2 ^ 63 - 24) :
    ∃ h' r, calloc h elements size = some (h', r) ∧
      (Call.calloc elements size).Spec A h'.lo h'.brk r (A.alloc h' r (elements * size)) ∧
      Good h' (A.alloc h' r (elements * size)) := by
  obtain ⟨L, hr, ht, hh⟩ := hg
  obtain ⟨h', L', p, hc, hr', hk, hp⟩ := hr.calloc_spec hes
  refine ⟨h', p, hc, ?_⟩
  rcases hp with ⟨rfl, hal⟩ | ⟨y, rfl, h0, hyn, hysz, hi', hal, hz⟩
  · rw [Live.alloc, if_pos rfl]
    exact ⟨.inl ⟨rfl, rfl⟩, L', hr', ht.congr hal, hh.kept ht hk⟩
  · obtain ⟨hfresh, hgood⟩ := Good.alloc ht hh hi' hk hal hyn hysz
    refine ⟨.inr ⟨h0, hfresh, ?_⟩, hgood⟩
    rw [Live.alloc, if_neg (by omega), payload_eq_replicate hz]

/-- `realloc(ptr, size)` of a live `ptr` and `size > 0`. -/
theorem Good.realloc (hg : Good h A) {ptr size : Nat} (hp : A ptr ≠ none) (h0 : size ≠ 0)
    (hsz : size ≤ 2 ^ 63 - 24) :
    ∃ h' r, realloc h ptr size = some (h', r) ∧
      (Call.realloc ptr size).Spec A h'.lo h'.brk r ((Call.realloc ptr size).view A h' r) ∧
      Good h' ((Call.realloc ptr size).view A h' r) := by
  obtain ⟨L, hr, ht, hh⟩ := hg
  obtain ⟨bytes, hb⟩ := Option.ne_none_iff_exists'.1 hp
  obtain ⟨b, hbL, rfl, hbs⟩ := ht.live _ bytes hb
  have hi := hr.inv hbL
  obtain ⟨h', L', q, hre, hi', hq⟩ := hi.realloc_spec hbL h0 hsz
  refine ⟨h', q, hre, ?_⟩
  simp only [Call.Spec, Call.view, if_neg h0, if_neg (show b.addr + 8 ≠ 0 by omega)]
  rcases hq with ⟨rfl, hal, hk⟩ | ⟨y, rfl, hysz, hal, hdisj, hcopy, hkeep⟩
  · rw [if_pos rfl]
    exact ⟨.inl ⟨rfl, rfl⟩, L', .inr hi', ht.congr hal, hh.kept ht hk⟩
  have hy' : Allocated L' y := (hal y).2 (.inr rfl)
  rw [if_neg (by omega), Live.free, if_neg (by omega), hb]
  refine ⟨.inr ⟨ht.freshIn hi' hy'.1 hysz hdisj, payload h' (y.addr + 8) size,
    length_payload h' _ size, ?_, rfl⟩, L', .inr hi',
    ?_, ?_⟩
  · -- the first bytes are copied
    rw [Option.getD_some, take_payload, ← hh _ bytes hb, take_payload, length_payload,
      Nat.min_comm]
    exact payload_congr fun i hi => hcopy i (by omega)
  · refine ((ht.erase fun x hx => hi.addr_ne hx.1 hbL.1).insert (fun x hx => ?_)
      (by rw [length_payload]; omega)).congr hal
    have := hdisj x hx.1; have := (hi.bounds hx.1.1).2.2.1; omega
  · -- the other payloads are kept
    refine Holds.insert (fun p bs hp => ?_) _ _
    have hpb : p ≠ b.addr + 8 := by rintro rfl; simp at hp
    rw [Function.update_noteq hpb] at hp
    obtain ⟨x, hx, rfl, hxs⟩ := ht.live p bs hp
    exact (payload_congr fun i hi =>
      hkeep x hx (by rintro rfl; exact hpb rfl) _ (by omega) (by omega)).trans (hh _ bs hp)

/-- A store of the client inside a live payload. -/
theorem Good.store (hg : Good h A) {ptr i : Nat} {bytes : List (Fin 256)}
    (hp : A ptr = some bytes) (hi : i < bytes.length) (v : Fin 256) :
    Good { h with mem := Function.update h.mem (ptr + i) v }
      (Function.update A ptr ((A ptr).map (·.set i v))) := by
  obtain ⟨L, hr, ht, hh⟩ := hg
  obtain ⟨y, hy, rfl, hys⟩ := ht.live _ bytes hp
  have hinv := hr.inv hy
  rw [hp, Option.map_some']
  refine ⟨L, .inr (hinv.store (ht.inUse hp hi) v), ht.set hp (List.length_set ..),
    fun q bs hq => ?_⟩
  by_cases hqy : q = y.addr + 8
  · subst hqy
    obtain rfl : bytes.set i v = bs := by simpa using hq
    rw [List.length_set, payload_store, hh _ bytes hp]
  · rw [Function.update_noteq hqy] at hq
    obtain ⟨x, hx, rfl, hxs⟩ := ht.live q bs hq
    have hxy : x ≠ y := by rintro rfl; exact hqy rfl
    have := hinv.tiles.disjoint hx.1 hy.1 hxy
    exact (payload_congr fun j hj => Function.update_noteq (by omega) _ _).trans (hh _ bs hq)

/-- `mm_init` of a fresh heap implements the empty view. -/
theorem Good.init {h' : Heap} {ok : Bool} (hf : Fresh h) (hinit : mmInit h = some (h', ok)) :
    Good h' fun _ => none := by
  obtain ⟨h1, ok1, hinit1, hpost⟩ := mmInit_spec hf
  obtain ⟨rfl, -⟩ := Prod.mk.inj (Option.some.inj (hinit1.symm.trans hinit))
  have hnone : ∀ {L}, (∀ x, ¬ Allocated L x) → Tracks (Allocated L) fun _ => none :=
    fun hal => ⟨fun _ _ hp => (by cases hp), fun x hx => absurd hx (hal x)⟩
  have hh : Holds h1 fun _ => none := fun _ _ hp => by cases hp
  rcases hpost with ⟨hf1, -⟩ | ⟨L, hi, hal⟩
  · exact ⟨emptyLayout, .inl ⟨hf1, rfl⟩, hnone not_allocated_empty, hh⟩
  · exact ⟨L, .inr hi, hnone hal, hh⟩

/-- Each valid call returns, meets the contract, and leaves a heap that implements the new
view. -/
theorem Good.step (hg : Good h A) {c : Call} (hc : c.Valid A) :
    ∃ h' r, c.exec h = some (h', r) ∧ c.Spec A h'.lo h'.brk r (c.view A h' r) ∧
      Good h' (c.view A h' r) := by
  cases c with
  | malloc size => exact hg.malloc hc
  | free ptr =>
    obtain ⟨h', hfree, hg'⟩ := hg.free hc
    exact ⟨h', 0, by simp [Call.exec, hfree], ⟨rfl, rfl⟩, hg'⟩
  | realloc ptr size =>
    by_cases h0 : size = 0
    · subst h0
      obtain ⟨h', hfree, hg'⟩ := hg.free hc.1
      exact ⟨h', 0, by simp [Call.exec, realloc_zero, hfree], ⟨rfl, rfl⟩, hg'⟩
    rcases hc.1 with rfl | hp
    · -- `realloc(NULL, size)` is `malloc(size)`
      obtain ⟨h', r, hm, hspec, hg'⟩ := hg.malloc hc.2
      have hv : (Call.realloc 0 size).view A h' r = A.alloc h' r size := by
        by_cases hr : r = 0 <;> simp [Call.view, Live.free, Live.alloc, h0, hr]
      refine ⟨h', r, (realloc_null h h0).trans hm, ?_, hv ▸ hg'⟩
      rw [hv, Call.Spec, if_neg h0, if_pos rfl]
      exact hspec
    · exact hg.realloc hp h0 hc.2
  | calloc elements size => exact hg.calloc hc
  | store ptr i v =>
    obtain ⟨bytes, hp, hi⟩ := hc
    exact ⟨_, 0, rfl, ⟨rfl, rfl⟩, hg.store hp hi v⟩

end

/-! ## Runs -/

/-- Every state a client reaches implements its view. -/
theorem Reachable.good {h : Heap} {A : Live} (hr : Reachable h A) : Good h A := by
  induction hr with
  | init hf hinit => exact Good.init hf hinit
  | step _ hc hex ih =>
    obtain ⟨h'', r'', hex', -, hg⟩ := ih.step hc
    obtain ⟨rfl, rfl⟩ := Prod.mk.inj (Option.some.inj (hex.symm.trans hex'))
    exact hg

/-- A fresh heap at `16` whose `mem_sbrk` always succeeds. -/
def okHeap : Heap := ⟨fun _ => 0, 0, fun _ => 0, 16, 16, fun _ => true, 0⟩

/-- `mm_init` of it, which succeeds, and then `malloc(24)`. -/
def okInit : Heap × Bool := (mmInit okHeap).get (by decide)

def okMalloc : Heap × Nat := (malloc okInit.1 24).get (by decide)

theorem okInit_eq : mmInit okHeap = some okInit := (Option.some_get _).symm

theorem okMalloc_eq : malloc okInit.1 24 = some okMalloc := (Option.some_get _).symm

example : okMalloc.2 = 32 := by decide

/-- The client's view after them: one live payload of 24 bytes at `32`. -/
def okView : Live := (Call.malloc 24).view (fun _ => none) okMalloc.1 okMalloc.2

theorem reachable_okMalloc : Reachable okMalloc.1 okView :=
  .step (.init (h := okHeap) ⟨rfl, rfl, rfl⟩ okInit_eq) (show 24 ≤ 2 ^ 63 - 24 by decide)
    okMalloc_eq

/-- Every heap a client reaches is still fresh or satisfies the heap representation invariant,
and every valid call on it returns. -/
theorem Reachable.invariant {h : Heap} {A : Live} (hr : Reachable h A) :
    (Fresh h ∨ ∃ L, Inv h L) ∧ ∀ c : Call, c.Valid A → ∃ h' r, c.exec h = some (h', r) := by
  obtain ⟨L, hready, -, -⟩ := hr.good
  refine ⟨hready.imp And.left fun hi => ⟨L, hi⟩, fun c hc => ?_⟩
  obtain ⟨h', r, hex, -⟩ := hr.good.step hc
  exact ⟨h', r, hex⟩

theorem Reachable.invariant_okMalloc :
    Reachable okMalloc.1 okView ∧ (Fresh okMalloc.1 ∨ ∃ L, Inv okMalloc.1 L) ∧
      ∀ c : Call, c.Valid okView → ∃ h' r, c.exec okMalloc.1 = some (h', r) :=
  ⟨reachable_okMalloc, Reachable.invariant reachable_okMalloc⟩

/-- The heap of every state a client reaches holds the client's view, and every valid call
returns and meets the allocator's contract. -/
theorem Reachable.simulates {h : Heap} {A : Live} (hr : Reachable h A) :
    Holds h A ∧ ∀ c : Call, c.Valid A → ∃ h' r, c.exec h = some (h', r) ∧
      c.Spec A h'.lo h'.brk r (c.view A h' r) := by
  obtain ⟨L, -, -, hh⟩ := hr.good
  refine ⟨hh, fun c hc => ?_⟩
  obtain ⟨h', r, hex, hspec, -⟩ := hr.good.step hc
  exact ⟨h', r, hex, hspec⟩

theorem Reachable.simulates_okMalloc :
    Reachable okMalloc.1 okView ∧ Holds okMalloc.1 okView ∧
      ∀ c : Call, c.Valid okView → ∃ h' r, c.exec okMalloc.1 = some (h', r) ∧
        c.Spec okView h'.lo h'.brk r (c.view okView h' r) :=
  ⟨reachable_okMalloc, Reachable.simulates reachable_okMalloc⟩

end SystemsLabs.Malloc
