import SystemsLabs.Malloc.Links

/-!
# Rewriting a stretch of the heap

Every function of `mm.c` that changes the implicit list rewrites the blocks of one stretch of
the heap and leaves the rest in place: `free` turns an allocated block into a free one,
`split_block` cuts a free block in two, `coalesce_block` merges a run of free blocks, and
`extend_heap` puts a block where the epilogue was (the new stretch then ends at the new
epilogue).

`Shape.retile` says once which words such a rewrite has to write: the headers of the new blocks,
the footers of the new free blocks, and the header after the stretch (`headerAfter`, the next
block's or the epilogue's). Every other word keeps its value and its meaning: a header before or
after the stretch sees the same block ending at it (`flagsBefore_retile_lo`,
`flagsBefore_retile_hi`), and the free lists, whose blocks all lie outside the stretch, are read
as before. The bytes outside the stretch, the client's payloads among them, are kept.
-/

namespace SystemsLabs.Malloc

/-! ## Tilings -/

namespace Tiles
variable {a e : Nat} {bs : List Blk}

/-- A tiling ends after the sum of its sizes. -/
theorem end_eq (h : Tiles a bs e) : e = a + (bs.map Blk.size).sum := by
  induction bs generalizing a with
  | nil => exact h.symm
  | cons b bs ih => rw [ih h.2.2.2, List.map_cons, List.sum_cons]; omega

theorem add_le_of_ne_nil (h : Tiles a bs e) (hne : bs ≠ []) : a + 16 ≤ e := by
  obtain ⟨b, t, rfl⟩ := List.exists_cons_of_ne_nil hne
  have := h.2.2.2.le; have := h.2.1; omega

/-- A nonempty tiling spans a nonzero multiple of 16 bytes. -/
theorem span (h : Tiles a bs e) (hne : bs ≠ []) (ha : a % 16 = 8) :
    a + 16 ≤ e ∧ (e - a) % 16 = 0 := by
  have := h.add_le_of_ne_nil hne; have := h.end_mod ha; omega

/-- The tilings of the parts of `l₁ ++ b :: l₂` around `b`, with `b`'s neighbours. -/
theorem split {l₁ l₂ : List Blk} {b : Blk} (h : Tiles a (l₁ ++ b :: l₂) e) :
    Tiles a l₁ b.addr ∧ Tiles (b.addr + b.size) l₂ e ∧ 16 ≤ b.size ∧ b.size % 16 = 0 := by
  obtain ⟨m, h1, hm, h16, hmod, h2⟩ := Tiles.append_iff.1 h
  subst hm
  exact ⟨h1, h2, h16, hmod⟩

theorem last_end {l : List Blk} {x : Blk} (h : Tiles a (l ++ [x]) e) : x.addr + x.size = e :=
  (split h).2.1

theorem head_addr {x : Blk} {l : List Blk} (h : Tiles a (x :: l) e) : x.addr = a := h.1

/-- One block spanning `[a, e)`. -/
theorem single (hlt : a + 16 ≤ e) (hmod : (e - a) % 16 = 0) (al : Bool) :
    Tiles a [⟨a, e - a, al⟩] e :=
  ⟨rfl, by dsimp only; omega, hmod, by show a + (e - a) = e; omega⟩

/-- Three consecutive tilings. -/
theorem append3 {s m z : Nat} {l₁ l₂ l₃ : List Blk} (h₁ : Tiles a l₁ s) (h₂ : Tiles s l₂ m)
    (h₃ : Tiles m l₃ z) : Tiles a (l₁ ++ l₂ ++ l₃) z :=
  append_iff.2 ⟨m, append_iff.2 ⟨s, h₁, h₂⟩, h₃⟩

end Tiles

/-! ## Flags around a stretch -/

/-- The flags at `p` do not see blocks after the prefix that do not end at `p`. -/
theorem flagsBefore_append_left {l r r' : List Blk} {p : Nat}
    (hr : ∀ x ∈ r, x.addr + x.size ≠ p) (hr' : ∀ x ∈ r', x.addr + x.size ≠ p) :
    flagsBefore (l ++ r) p = flagsBefore (l ++ r') p := by
  unfold flagsBefore
  rw [List.find?_append, List.find?_append,
    (List.find?_eq_none (l := r)).2 fun x hx => by simpa using hr x hx,
    (List.find?_eq_none (l := r')).2 fun x hx => by simpa using hr' x hx]

/-- The flags at `p` do not see blocks before the suffix that do not end at `p`. -/
theorem flagsBefore_append_right {l l' r : List Blk} {p : Nat}
    (hl : ∀ x ∈ l, x.addr + x.size ≠ p) (hl' : ∀ x ∈ l', x.addr + x.size ≠ p) :
    flagsBefore (l ++ r) p = flagsBefore (l' ++ r) p := by
  unfold flagsBefore
  rw [List.find?_append, List.find?_append,
    (List.find?_eq_none (l := l)).2 fun x hx => by simpa using hl x hx,
    (List.find?_eq_none (l := l')).2 fun x hx => by simpa using hl' x hx]

section RetileFlags
variable {a s e e' z : Nat} {pre mid mid' post : List Blk}

/-- A header up to the start of a stretch keeps its flags when the stretch is rewritten. -/
theorem flagsBefore_retile_lo (hmid : Tiles s mid e) (hmid' : Tiles s mid' e')
    (hpost : Tiles e post z) {p : Nat} (hp : p ≤ s) :
    flagsBefore (pre ++ mid ++ post) p = flagsBefore (pre ++ mid' ++ post) p := by
  have hend : ∀ x ∈ mid ++ post, x.addr + x.size ≠ p := fun x hx => by
    rcases List.mem_append.1 hx with hx | hx
    · have := hmid.bounds x hx; omega
    · have := hpost.bounds x hx; have := hmid.le; omega
  rw [List.append_assoc, List.append_assoc]
  refine flagsBefore_append_left hend fun x hx => ?_
  rcases List.mem_append.1 hx with hx | hx
  · have := hmid'.bounds x hx; omega
  · exact hend x (List.mem_append_right _ hx)

/-- A header after the end of a stretch keeps its flags when the stretch is rewritten. -/
theorem flagsBefore_retile_hi (hpre : Tiles a pre s) (hmid : Tiles s mid e)
    (hmid' : Tiles s mid' e') {p : Nat} (hp : e < p) (hp' : e' < p) :
    flagsBefore (pre ++ mid ++ post) p = flagsBefore (pre ++ mid' ++ post) p := by
  have hpre_end : ∀ x ∈ pre, x.addr + x.size < p := fun x hx => by
    have := hpre.bounds x hx; have := hmid.le; omega
  refine flagsBefore_append_right (fun x hx => ?_) (fun x hx => ?_)
  · rcases List.mem_append.1 hx with hx | hx
    · exact Nat.ne_of_lt (hpre_end x hx)
    · have := hmid.bounds x hx; omega
  · rcases List.mem_append.1 hx with hx | hx
    · exact Nat.ne_of_lt (hpre_end x hx)
    · have := hmid'.bounds x hx; omega

end RetileFlags

/-- The header word after a stretch: the next block's, or the epilogue's at `e`. -/
def headerAfter (bs post : List Blk) (e : Nat) : Nat :=
  match post with
  | [] => epilogueOf bs e
  | y :: _ => headerOf bs y

/-! ## Header writes -/

/-- `set_next_block_pre_alloc_pre_min` rewrites the next header with its own size and `alloc`
bit and the given flags. -/
theorem setNextBlockPreAllocPreMin_eq (h : Heap) (block : Nat) (pm pa : Bool) :
    setNextBlockPreAllocPreMin h block pm pa = h.store (findNext h block)
      (pack (getSize h (findNext h block)) pm pa (getAlloc h (findNext h block))) := by
  simp [setNextBlockPreAllocPreMin, writeBlock]

/-- A header rewritten with the size it holds fits in a word. -/
theorem pack_getSize_lt (h : Heap) (a : Nat) (pm pa al : Bool) :
    pack (getSize h a) pm pa al < 2 ^ 64 :=
  pack_lt _ _ _ (extractSize_mod _) (lt_of_le_of_lt (extractSize_le _) (h.mem.read_lt a))

/-- The words `write_block` changes: the header, and the footer when it writes one. -/
theorem writeBlock_word (h : Heap) (block : Nat) {size x : Nat} (pm pa al wf : Bool) (hb : block % 8 = 0)
    (hsz : size % 16 = 0) (h16 : 16 ≤ size) (hlt : size < 2 ^ 64) (hx : x % 8 = 0) :
    (writeBlock h block size pm pa al wf).word x =
      if x = block then pack size pm pa al
      else if wf = true ∧ size ≠ 16 ∧ x = block + size - 8 then pack size pm pa al
      else h.word x := by
  have hW := pack_lt pm pa al hsz hlt
  have hget : getSize (h.store block (pack size pm pa al)) block = size := by
    rw [getSize, Heap.word_store_self, Nat.mod_eq_of_lt hW, extractSize_pack _ _ _ hsz hlt]
  simp only [writeBlock, headerToFooter, hget, minBlockSize_eq, wsize_eq, dsize_eq]
  by_cases hf : wf = true ∧ size ≠ 16
  · rw [if_pos hf, Heap.word_store _ _ (by omega) hx, Heap.word_store _ _ hb hx,
      Nat.mod_eq_of_lt hW, show block + 8 + size - 16 = block + size - 8 by omega]
    by_cases hxb : x = block
    · rw [if_neg (by omega), if_pos hxb, if_pos hxb]
    · rw [if_neg hxb, if_neg hxb]; simp only [hf.1, hf.2, ne_eq, not_false_eq_true, true_and]
  · rw [if_neg hf, Heap.word_store _ _ hb hx, Nat.mod_eq_of_lt hW]
    by_cases hxb : x = block
    · simp only [hxb, if_true]
    · rw [if_neg hxb, if_neg hxb, if_neg fun (h' : wf = true ∧ size ≠ 16 ∧ _) => hf ⟨h'.1, h'.2.1⟩]

theorem writeBlock_sameSys (h : Heap) (block size : Nat) (pm pa al wf : Bool) :
    Heap.SameSys h (writeBlock h block size pm pa al wf) := by
  unfold writeBlock; split <;> exact ⟨rfl, rfl, rfl, rfl, rfl⟩

theorem setNextBlockPreAllocPreMin_sameSys (h : Heap) (block : Nat) (pm pa : Bool) :
    Heap.SameSys h (setNextBlockPreAllocPreMin h block pm pa) := by
  unfold setNextBlockPreAllocPreMin; exact writeBlock_sameSys _ _ _ _ _ _ _

@[simp] theorem writeBlock_segList (h : Heap) (block size : Nat) (pm pa al wf : Bool) :
    (writeBlock h block size pm pa al wf).segList = h.segList := by
  unfold writeBlock; split <;> rfl

/-- `get_size` of a block just written. -/
theorem getSize_writeBlock (h : Heap) (block : Nat) {size : Nat} (pm pa al wf : Bool) (hb : block % 8 = 0)
    (hsz : size % 16 = 0) (h16 : 16 ≤ size) (hlt : size < 2 ^ 64) :
    getSize (writeBlock h block size pm pa al wf) block = size := by
  rw [getSize, writeBlock_word h block pm pa al wf hb hsz h16 hlt hb, if_pos rfl,
    extractSize_pack _ _ _ hsz hlt]

namespace Shape
variable {h : Heap} {L : Layout} (hs : Shape h L)
include hs

/-- The header after a stretch, read in `h` and given the flags the new layout has there. -/
theorem headerAfter_of_flags {pre mid post : List Blk} {e : Nat}
    (hsplit : L.blocks = pre ++ mid ++ post) (hpost : Tiles e post h.epi) {bs : List Blk}
    {pm pa : Bool} (hfl : flagsBefore bs e = (pm, pa)) :
    pack (getSize h e) pm pa (getAlloc h e) = headerAfter bs post e := by
  cases post with
  | nil =>
    have he : e = h.epi := hpost
    rw [headerAfter, epilogueOf, hfl, he, hs.getSize_epi, hs.getAlloc_epi]
  | cons z t =>
    have hz : z ∈ L.blocks := hsplit ▸ List.mem_append_right _ (List.mem_cons_self _ _)
    rw [headerAfter, headerOf, hpost.head_addr, hfl, ← hpost.head_addr, hs.getSize_eq hz,
      hs.getAlloc_eq hz]

/-- The words a rewrite of a stretch must write. Let `mid` tile `[s, e)` between `pre` and
`post`, no block of it listed, and let `mid'` tile `[s, e')`, where `post` tiles on up to the
epilogue (so `e' = e` unless `post` is empty). A heap with the globals, lists and words of `h`
outside `[s, e']`, holding the headers of `mid'`, footers for its free blocks and the header
after it, has the shape of `pre ++ mid' ++ post`, and keeps every byte outside the stretch. -/
theorem retile {h' : Heap} {pre mid mid' post : List Blk} {s e e' : Nat}
    (hsplit : L.blocks = pre ++ mid ++ post) (hpre : Tiles h.heapStart pre s)
    (hmid : Tiles s mid e) (hpost : Tiles e post h.epi) (hmid' : Tiles s mid' e')
    (hpost' : Tiles e' post h'.epi) (hunl : ∀ x ∈ mid, ∀ c, x.addr ∉ L.lists c)
    (hstart : h'.heapStart = h.heapStart) (hlo : h'.lo = h.lo) (hbrk : h'.brk ≤ 2 ^ 63)
    (hseg : h'.segList = h.segList)
    (hframe : ∀ x, x % 8 = 0 → (x + 8 ≤ s ∨ e' < x) → h'.word x = h.word x)
    (hhead : ∀ y ∈ mid', h'.word y.addr = headerOf (pre ++ mid' ++ post) y)
    (hfoot : ∀ y ∈ mid', y.alloc = false → y.size ≠ 16 →
      ∃ pm pa, h'.word (y.addr + y.size - 8) = pack y.size pm pa false)
    (hnext : h'.word e' = headerAfter (pre ++ mid' ++ post) post e') :
    Shape h' ⟨pre ++ mid' ++ post, L.lists⟩ ∧ ∀ y, (y < s ∨ e' + 8 ≤ y) → h'.mem y = h.mem y := by
  have hsm' := hs.start_mod
  have hsm : s % 16 = 8 := hpre.end_mod hsm'
  have hem : e' % 16 = 8 := hmid'.end_mod hsm
  have hse := hmid'.le
  have hstart_s := hpre.le
  have hpreb := hpre.bounds
  have hpostb := hpost'.bounds
  have hmem : ∀ x ∈ L.blocks, x ∈ pre ∨ x ∈ mid ∨ x ∈ post := fun x hx => by
    rw [hsplit] at hx; simpa [or_assoc] using hx
  -- the old and new stretch end together unless nothing follows them
  have hee : post ≠ [] → e = e' ∧ h'.epi = h.epi := fun hne => by
    obtain ⟨z, t, rfl⟩ := List.exists_cons_of_ne_nil hne
    have hz : e = e' := hpost.head_addr.symm.trans hpost'.head_addr
    subst hz
    exact ⟨rfl, by rw [hpost.end_eq, hpost'.end_eq]⟩
  -- the words of the blocks outside the stretch
  have hpre_w : ∀ x ∈ pre, ∀ o, o + 8 ≤ x.size → (x.addr + o) % 8 = 0 →
      h'.word (x.addr + o) = h.word (x.addr + o) := fun x hx o ho hm => by
    have := hpreb x hx; exact hframe _ hm (.inl (by omega))
  have hpost_w : ∀ x ∈ post, ∀ o, 0 < o → (x.addr + o) % 8 = 0 →
      h'.word (x.addr + o) = h.word (x.addr + o) := fun x hx o ho hm => by
    have := hpostb x hx; exact hframe _ hm (.inr (by omega))
  have hpre_m : ∀ x ∈ pre, x.addr % 16 = 8 := hpre.addr_mod hsm'
  have hpost_m : ∀ x ∈ post, x.addr % 16 = 8 := hpost'.addr_mod hem
  -- a listed block lies before or after the stretch
  have hlisted : ∀ c a, a ∈ L.lists c → ∃ x, (x ∈ pre ∨ x ∈ post) ∧ x.addr = a ∧
      (c ≠ 0 → 16 < x.size) := fun c a ha => by
    obtain ⟨x, hx, rfl, -⟩ := hs.listed ha
    have h16 : c ≠ 0 → 16 < x.size := fun hc => by
      obtain ⟨y, hy, hya, -, h16⟩ := hs.listed_size hc ha
      rwa [← hs.tiles.eq_of_addr_eq hy hx hya]
    rcases hmem x hx with hx' | hx' | hx'
    · exact ⟨x, .inl hx', rfl, h16⟩
    · exact absurd ha (hunl x hx' c)
    · exact ⟨x, .inr hx', rfl, h16⟩
  refine ⟨⟨hlo ▸ hs.lo, by rw [hstart, hlo]; exact hs.start, hbrk, ?tiles, ?prologue, ?headers,
    ?epilogue, ?footers, ?lists⟩, ?kept⟩
  case tiles => rw [hstart]; exact hpre.append3 hmid' hpost'
  case prologue =>
    rw [hstart, hframe _ (by omega) (.inl (by omega))]; exact hs.prologue
  case headers =>
    intro x hx
    rcases List.mem_append.1 hx with hx | hx
    · rcases List.mem_append.1 hx with hx | hx
      · have := hpreb x hx
        rw [show x.addr = x.addr + 0 from rfl, hpre_w x hx 0 (by omega) (by have := hpre_m x hx; omega),
          Nat.add_zero, hs.headers x (hsplit ▸ List.mem_append_left _ (List.mem_append_left _ hx)),
          headerOf, headerOf, hsplit, flagsBefore_retile_lo hmid hmid' hpost (by omega)]
      · exact hhead x hx
    · have hne : post ≠ [] := List.ne_nil_of_mem hx
      obtain ⟨rfl, -⟩ := hee hne
      obtain ⟨y, t, rfl⟩ := List.exists_cons_of_ne_nil hne
      rcases List.mem_cons.1 hx with rfl | hx'
      · rw [hpost'.head_addr, hnext]; rfl
      · have hxb := hpostb x hx
        have hy := hpost'.2.2.2.bounds x hx'
        have := hpost'.2.1
        rw [hframe _ (by have := hpost_m x hx; omega) (.inr (by omega)),
          hs.headers x (hsplit ▸ List.mem_append_right _ hx), headerOf, headerOf, hsplit,
          flagsBefore_retile_hi hpre hmid hmid' (by omega) (by omega)]
  case epilogue =>
    cases post with
    | nil =>
      have hee' : e' = h'.epi := hpost'
      rw [← hee', hnext]; rfl
    | cons y t =>
      obtain ⟨rfl, hepi⟩ := hee (List.cons_ne_nil _ _)
      have := hpost'.2.2.2.le; have := hpost'.2.1; have := hpost'.1
      rw [hframe _ (by have := hs.epi_mod; omega) (.inr (by omega)), hepi, hs.epilogue,
        epilogueOf, epilogueOf, hsplit, ← hepi, flagsBefore_retile_hi hpre hmid hmid' (by omega) (by omega)]
  case footers =>
    intro x hx hxf hx16
    rcases List.mem_append.1 hx with hx | hx
    · rcases List.mem_append.1 hx with hx | hx
      · have := hpreb x hx
        rw [show x.addr + x.size - 8 = x.addr + (x.size - 8) by omega,
          hpre_w x hx (x.size - 8) (by omega) (by have := hpre_m x hx; omega),
          show x.addr + (x.size - 8) = x.addr + x.size - 8 by omega]
        exact hs.footers x (hsplit ▸ List.mem_append_left _ (List.mem_append_left _ hx)) hxf hx16
      · exact hfoot x hx hxf hx16
    · have := hpostb x hx
      rw [show x.addr + x.size - 8 = x.addr + (x.size - 8) by omega,
        hpost_w x hx _ (by omega) (by have := hpost_m x hx; omega),
        show x.addr + (x.size - 8) = x.addr + x.size - 8 by omega]
      exact hs.footers x (hsplit ▸ List.mem_append_right _ hx) hxf hx16
  case lists =>
    -- the link words of a listed block are kept
    have hlink : ∀ c a, a ∈ L.lists c → h'.word (nextOf a) = h.word (nextOf a) ∧
        (c ≠ 0 → h'.word (prevOf a) = h.word (prevOf a)) := fun c a ha => by
      obtain ⟨x, hx, rfl, h16⟩ := hlisted c a ha
      unfold nextOf prevOf
      rcases hx with hx | hx
      · have := hpreb x hx; have := hpre_m x hx
        exact ⟨hpre_w x hx 8 (by omega) (by omega),
          fun hc => hpre_w x hx 16 (by have := h16 hc; omega) (by omega)⟩
      · have := hpost_m x hx
        exact ⟨hpost_w x hx 8 (by omega) (by omega), fun _ => hpost_w x hx 16 (by omega) (by omega)⟩
    refine ⟨hs.lists.nodup, hs.lists.bound, fun c a ha => ?_, fun c hc => ?_, fun c a ha => ?_,
      fun c hc a ha => ?_⟩
    · obtain ⟨x, hx, rfl, hxf, hcls⟩ := hs.lists.free c a ha
      refine ⟨x, ?_, rfl, hxf, hcls⟩
      rcases hmem x hx with hx' | hx' | hx'
      · exact List.mem_append_left _ (List.mem_append_left _ hx')
      · exact absurd ha (hunl x hx' c)
      · exact List.mem_append_right _ hx'
    · rw [hseg]; exact hs.lists.head c hc
    · rw [(hlink c a ha).1]; exact hs.lists.next c a ha
    · rw [(hlink c a ha).2 hc]; exact hs.lists.prev c hc a ha
  case kept =>
    intro y hy
    exact Heap.mem_eq_of_word (hframe _ (by omega) (by omega))

/-- `write_block` of a free block over the stretch `[s, e)`, with the flags of the block before
it, then `set_next_block_pre_alloc_pre_min` with the flags it gives the block after: the writes
of `free`, and of cases 2 to 4 of `coalesce_block`. -/
theorem writeFree {pre mid post : List Blk} {s e : Nat}
    (hsplit : L.blocks = pre ++ mid ++ post) (hpre : Tiles h.heapStart pre s)
    (hmid : Tiles s mid e) (hpost : Tiles e post h.epi) (hne : mid ≠ [])
    (hunl : ∀ x ∈ mid, ∀ c, x.addr ∉ L.lists c) :
    let h' := setNextBlockPreAllocPreMin (writeBlock h s (e - s) (flagsBefore L.blocks s).1
      (flagsBefore L.blocks s).2 false (e - s ≠ 16)) s (e - s = 16) false
    Shape h' ⟨pre ++ ⟨s, e - s, false⟩ :: post, L.lists⟩ ∧ Heap.SameSys h h' ∧
      ∀ y, (y < s ∨ e + 8 ≤ y) → h'.mem y = h.mem y := by
  intro h'
  have hsm : s % 16 = 8 := hpre.end_mod hs.start_mod
  have hspan := hmid.span hne hsm
  have hlt := hs.epi_lt
  have he := hpost.le
  have hw1 := fun x (hx : x % 8 = 0) => writeBlock_word h s (flagsBefore L.blocks s).1
    (flagsBefore L.blocks s).2 false (decide (e - s ≠ 16)) (x := x) (by omega) hspan.2 (by omega)
    (by omega) hx
  have he1 := hw1 e (by omega)
  rw [if_neg (by omega), if_neg (by omega)] at he1
  have hfind : findNext (writeBlock h s (e - s) (flagsBefore L.blocks s).1
      (flagsBefore L.blocks s).2 false (e - s ≠ 16)) s = e := by
    rw [findNext, getSize_writeBlock _ _ _ _ _ _ (by omega) hspan.2 (by omega) (by omega)]; omega
  have hw : ∀ x, x % 8 = 0 → h'.word x =
      if x = e then pack (getSize h e) (decide (e - s = 16)) false (getAlloc h e)
      else (writeBlock h s (e - s) (flagsBefore L.blocks s).1 (flagsBefore L.blocks s).2 false
        (e - s ≠ 16)).word x := fun x hx => by
    show (setNextBlockPreAllocPreMin _ _ _ _).word x = _
    rw [setNextBlockPreAllocPreMin_eq, hfind, Heap.word_store _ _ (by omega) hx,
      Nat.mod_eq_of_lt (pack_getSize_lt _ _ _ _ _), getSize, getAlloc, he1]
    rfl
  have hsys : Heap.SameSys h h' :=
    (writeBlock_sameSys _ _ _ _ _ _ _).trans (setNextBlockPreAllocPreMin_sameSys _ _ _ _)
  have hnew : Tiles s [⟨s, e - s, false⟩] e := Tiles.single hspan.1 hspan.2 false
  have hlist : pre ++ ⟨s, e - s, false⟩ :: post = pre ++ [⟨s, e - s, false⟩] ++ post := by simp
  have hfl : flagsBefore (pre ++ [⟨s, e - s, false⟩] ++ post) e = (decide (e - s = 16), false) :=
    flagsBefore_of_mem (hpre.append3 hnew hpost) (x := ⟨s, e - s, false⟩) (by simp)
      (by show s + (e - s) = e; omega)
  rw [hlist]
  obtain ⟨hshape, hmem⟩ := hs.retile hsplit hpre hmid hpost hnew
    (by rwa [Heap.epi, hsys.brk]) hunl hsys.heapStart hsys.lo (hsys.brk ▸ hs.brk)
    (by simp [h', setNextBlockPreAllocPreMin])
    (fun x hx hx' => by rw [hw x hx, if_neg (by omega), hw1 x hx, if_neg (by omega), if_neg (by omega)])
    (fun y hy => by
      rw [List.mem_singleton] at hy; subst hy; dsimp only
      rw [hw _ (by omega), if_neg (by omega), hw1 _ (by omega), if_pos rfl, headerOf,
        hsplit, flagsBefore_retile_lo hmid hnew hpost le_rfl])
    (fun y hy _ h16 => by
      rw [List.mem_singleton] at hy; subst hy
      refine ⟨(flagsBefore L.blocks s).1, (flagsBefore L.blocks s).2, ?_⟩
      dsimp only at h16 ⊢
      rw [hw _ (by omega), if_neg (by omega), hw1 _ (by omega), if_neg (by omega),
        if_pos ⟨decide_eq_true h16, h16, rfl⟩])
    (by rw [hw e (by omega), if_pos rfl]; exact hs.headerAfter_of_flags hsplit hpost hfl)
  exact ⟨hshape, hsys, hmem⟩

end Shape

end SystemsLabs.Malloc
