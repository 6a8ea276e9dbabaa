import SystemsLabs.Malloc.Invariant
import Mathlib.Data.List.Perm.Subperm

/-!
# Walking the free lists

`Linked h L` says that the `next` words of the heap link the list `L`, a list of distinct
nonzero addresses. The loops of `mm.c` over a free list then compute functions of `L`:
the inner loop of `find_fit` its first fit (`fitInList_eq`), the scan of `fix_free_list` the
predecessor `prevIn L b` (`scanPrev_eq`). The fuel of the model, `listFuel`, always suffices:
the lists of a heap that satisfies `Shape` are shorter than `2 ^ 63` (`Shape.length_lt`).

`findFit_complete` is the search of `find_fit` over the classes from `find_seg_list_class`
on.
-/

namespace SystemsLabs.Malloc

/-- The `next` words of `h` link the distinct nonzero addresses of `L`. -/
def Linked (h : Heap) (L : List Nat) : Prop :=
  L.Nodup ∧ 0 ∉ L ∧ ∀ x ∈ L, h.word (nextOf x) = nextIn L x

theorem Linked.tail {h : Heap} {y : Nat} {ys : List Nat} (hl : Linked h (y :: ys)) : Linked h ys := by
  obtain ⟨hnd, h0, hnext⟩ := hl
  obtain ⟨hy, hnd'⟩ := List.nodup_cons.1 hnd
  refine ⟨hnd', fun h => h0 (List.mem_cons_of_mem _ h), fun x hx => ?_⟩
  rw [hnext x (List.mem_cons_of_mem _ hx), nextIn_cons, if_neg fun (h : x = y) => hy (h ▸ hx)]

theorem Linked.next_head {h : Heap} {y : Nat} {ys : List Nat} (hl : Linked h (y :: ys)) :
    h.word (nextOf y) = ys.headD 0 := by
  rw [hl.2.2 y (List.mem_cons_self _ _), nextIn_cons, if_pos rfl]

/-- The first block of `L` of at least `asize` bytes, `0` if there is none. -/
def firstFit (h : Heap) (asize : Nat) (L : List Nat) : Nat :=
  (L.find? fun x => asize ≤ getSize h x).getD 0

/-- The inner loop of `find_fit` returns the first fit of the list. -/
theorem fitInList_eq (h : Heap) (asize : Nat) :
    ∀ (L : List Nat) (fuel : Nat), Linked h L → L.length < fuel →
      fitInList h asize fuel (L.headD 0) = some (firstFit h asize L)
  | [], fuel + 1, _, _ => rfl
  | y :: ys, fuel + 1, hl, hlen => by
    have hy0 : y ≠ 0 := fun h => hl.2.1 (h ▸ List.mem_cons_self _ _)
    rw [List.headD_cons, fitInList, if_neg hy0]
    by_cases hfit : getSize h y ≥ asize
    · rw [if_pos hfit, firstFit, List.find?_cons_of_pos _ (by simpa using hfit)]; rfl
    · rw [if_neg hfit, hl.next_head, fitInList_eq h asize ys fuel hl.tail (by simpa using hlen),
        firstFit, firstFit, List.find?_cons_of_neg _ (by simpa using hfit)]

/-- The scan of `fix_free_list` for a 16-byte block `b` returns its predecessor, `0` at the
head. -/
theorem scanPrev_eq (h : Heap) {b : Nat} (hb : b ≠ 0) :
    ∀ (L : List Nat) (fuel : Nat), Linked h L → L.length < fuel →
      scanPrev h b fuel (L.headD 0) = some (prevIn L b)
  | [], fuel + 1, _, _ => rfl
  | y :: ys, fuel + 1, hl, hlen => by
    have hy0 : y ≠ 0 := fun h => hl.2.1 (h ▸ List.mem_cons_self _ _)
    rw [List.headD_cons, scanPrev, if_neg hy0, hl.next_head, prevIn]
    cases ys with
    | nil =>
      obtain ⟨f, rfl⟩ : ∃ f, fuel = f + 1 := ⟨fuel - 1, by simp at hlen; omega⟩
      simp [scanPrev, Ne.symm hb, prevIn]
    | cons z zs =>
      simp only [List.headD_cons, List.head?_cons, Option.some.injEq]
      split_ifs with hz
      · rfl
      · exact scanPrev_eq h hb (z :: zs) fuel hl.tail (by simpa using hlen)

/-- What the first fit is: a block of the list with at least `asize` bytes, every block before
it smaller. -/
def FirstFitAt (h : Heap) (asize : Nat) (L : List Nat) (r : Nat) : Prop :=
  ∃ s t, L = s ++ r :: t ∧ (∀ x ∈ s, getSize h x < asize) ∧ asize ≤ getSize h r

theorem firstFit_spec (h : Heap) (asize : Nat) :
    ∀ L : List Nat, 0 ∉ L → (firstFit h asize L = 0 ∧ ∀ x ∈ L, getSize h x < asize) ∨
      (firstFit h asize L ∈ L ∧ FirstFitAt h asize L (firstFit h asize L))
  | [], _ => .inl ⟨rfl, by simp⟩
  | y :: ys, h0 => by
    by_cases hfit : asize ≤ getSize h y
    · have : firstFit h asize (y :: ys) = y := by
        rw [firstFit, List.find?_cons_of_pos _ (by simpa using hfit)]; rfl
      rw [this]
      exact .inr ⟨List.mem_cons_self _ _, [], ys, rfl, by simp, hfit⟩
    · have heq : firstFit h asize (y :: ys) = firstFit h asize ys := by
        rw [firstFit, firstFit, List.find?_cons_of_neg _ (by simpa using hfit)]
      rw [heq]
      rcases firstFit_spec h asize ys (fun h => h0 (List.mem_cons_of_mem _ h)) with
        ⟨h1, h2⟩ | ⟨h1, s, t, h2, h3, h4⟩
      · refine .inl ⟨h1, fun x hx => ?_⟩
        rcases List.mem_cons.1 hx with rfl | hx
        · omega
        · exact h2 x hx
      · refine .inr ⟨List.mem_cons_of_mem _ h1, y :: s, t, congrArg (List.cons y) h2, fun x hx => ?_, h4⟩
        rcases List.mem_cons.1 hx with rfl | hx
        · omega
        · exact h3 x hx

namespace Shape
variable {h : Heap} {L : Layout} (hs : Shape h L)
include hs

theorem linked (c : Nat) : Linked h (L.lists c) :=
  ⟨hs.lists.nodup c, hs.zero_not_mem c, hs.lists.next c⟩

/-- A free list holds fewer than `2 ^ 63` blocks, so `listFuel` always suffices. -/
theorem length_lt (c : Nat) : (L.lists c).length < listFuel := by
  have hsub : L.lists c ⊆ List.range (2 ^ 63) := fun a ha => by
    obtain ⟨b, hb, rfl, -⟩ := hs.listed ha
    have := hs.bounds hb; have := hs.epi_lt
    exact List.mem_range.2 (by omega)
  have := ((hs.lists.nodup c).subperm hsub).length_le
  rw [List.length_range] at this
  unfold listFuel; omega

/-- The outer loop of `find_fit` over the `k` classes from `cls`. -/
theorem fitFrom_spec (asize : Nat) : ∀ k cls, cls + k ≤ MAX_SEG_LIST_LENGTH →
    ∃ r, fitFrom h asize k cls = some r ∧
      ((r = 0 ∧ ∀ c, cls ≤ c → c < cls + k → ∀ x ∈ L.lists c, getSize h x < asize) ∨
       (∃ c, cls ≤ c ∧ c < cls + k ∧
          (∀ c', cls ≤ c' → c' < c → ∀ x ∈ L.lists c', getSize h x < asize) ∧
          r ∈ L.lists c ∧ FirstFitAt h asize (L.lists c) r))
  | 0, cls, _ => ⟨0, rfl, .inl ⟨rfl, fun c h1 h2 => by omega⟩⟩
  | k + 1, cls, hk => by
    have hfit := fitInList_eq h asize (L.lists cls) listFuel (hs.linked cls) (hs.length_lt cls)
    rw [← hs.lists.head cls (by omega)] at hfit
    simp only [fitFrom, hfit, Option.bind_eq_bind, Option.some_bind]
    rcases firstFit_spec h asize (L.lists cls) (hs.zero_not_mem cls) with ⟨h1, h2⟩ | ⟨h1, h2⟩
    · rw [h1, if_neg (by simp)]
      obtain ⟨r, hr, hspec⟩ := fitFrom_spec asize k (cls + 1) (by omega)
      refine ⟨r, hr, ?_⟩
      rcases hspec with ⟨h3, h4⟩ | ⟨c, h3, h4, h5, h6⟩
      · refine .inl ⟨h3, fun c hc1 hc2 => ?_⟩
        rcases Nat.eq_or_lt_of_le hc1 with rfl | hc1
        · exact h2
        · exact h4 c hc1 (by omega)
      · refine .inr ⟨c, by omega, by omega, fun c' hc1 hc2 => ?_, h6⟩
        rcases Nat.eq_or_lt_of_le hc1 with rfl | hc1
        · exact h2
        · exact h5 c' hc1 hc2
    · have hne : firstFit h asize (L.lists cls) ≠ 0 := fun h0 => hs.zero_not_mem cls (h0 ▸ h1)
      rw [if_pos hne]
      exact ⟨_, rfl, .inr ⟨cls, le_rfl, by omega, fun c' h3 h4 => by omega, h1, h2⟩⟩

end Shape

/-- `find_fit(asize)` is complete. It returns a nonzero block exactly when some free block has
at least `asize` bytes; that block is then the first fit, in list order, of the lowest list at
or above the class of `asize` that holds a fit. -/
theorem findFit_complete {h : Heap} {L : Layout} (hi : Inv h L) {asize : Nat}
    (h63 : asize ≤ 2 ^ 63) :
    ∃ cls r, findSegListClass asize = some cls ∧ findFit h asize = some r ∧
      ((∃ b ∈ L.blocks, b.alloc = false ∧ asize ≤ b.size) ↔ r ≠ 0) ∧
      (r ≠ 0 → ∃ c, cls ≤ c ∧ c < MAX_SEG_LIST_LENGTH ∧
        (∀ c', cls ≤ c' → c' < c → ∀ x ∈ L.lists c', getSize h x < asize) ∧
        r ∈ L.lists c ∧ FirstFitAt h asize (L.lists c) r) := by
  obtain ⟨cls, hcls, hlt⟩ := findSegListClass_lt h63
  obtain ⟨r, hr, hspec⟩ := hi.toShape.fitFrom_spec asize (MAX_SEG_LIST_LENGTH - cls) cls (by omega)
  have hfind : findFit h asize = some r := by rw [findFit, hcls]; exact hr
  refine ⟨cls, r, hcls, hfind, ⟨fun ⟨b, hb, hfree, hsize⟩ => ?_, fun hr0 => ?_⟩, fun hr0 => ?_⟩
  · rcases hspec with ⟨rfl, hnone⟩ | ⟨c, -, -, -, hmem, -⟩
    · obtain ⟨cb, hcb, hcb14⟩ := findSegListClass_lt (le_of_lt (hi.toShape.size_lt hb))
      have hle := findSegListClass_mono hsize (le_of_lt (hi.toShape.size_lt hb)) hcls hcb
      have := hnone cb hle (by omega) b.addr (hi.covered b hb hfree cb hcb)
      rw [hi.toShape.getSize_eq hb] at this
      omega
    · exact fun h0 => hi.toShape.zero_not_mem c (h0 ▸ hmem)
  · rcases hspec with ⟨rfl, -⟩ | ⟨c, -, -, -, hmem, -, -, -, -, hfit⟩
    · exact absurd rfl hr0
    · obtain ⟨b, hb, rfl, hfree, -⟩ := hi.toShape.listed hmem
      exact ⟨b, hb, hfree, by rwa [hi.toShape.getSize_eq hb] at hfit⟩
  · rcases hspec with ⟨rfl, -⟩ | ⟨c, h1, h2, h3, h4⟩
    · exact absurd rfl hr0
    · exact ⟨c, h1, by omega, h3, h4⟩

/-- A free 48-byte block at `8` on list 2 and a free 80-byte block at `72` on list 3, with an
allocated 16-byte block between them. -/
def twoClasses : Heap where
  mem := fun x => if x = 0 then 3 else if x = 8 ∨ x = 48 then 50 else if x = 56 then 17
    else if x = 72 ∨ x = 144 then 86 else if x = 152 then 1 else 0
  heapStart := 8
  segList := fun c => if c = 2 then 8 else if c = 3 then 72 else 0
  lo := 0
  brk := 160
  sbrkOk := fun _ => false
  sbrkCalls := 1

def twoClassesLayout : Layout :=
  ⟨[⟨8, 48, false⟩, ⟨56, 16, true⟩, ⟨72, 80, false⟩],
    fun c => if c = 2 then [8] else if c = 3 then [72] else []⟩

theorem twoClasses_inv : Inv twoClasses twoClassesLayout where
  lo := rfl
  start := rfl
  brk := by decide
  tiles := ⟨rfl, by decide, rfl, rfl, by decide, rfl, rfl, by decide, rfl, rfl⟩
  prologue := by decide
  headers := by decide
  epilogue := by decide
  footers := by decide
  lists := .of_forall_lt (fun c hc => by
      simp only [MAX_SEG_LIST_LENGTH_eq] at hc
      simp [twoClassesLayout, show c ≠ 2 by omega, show c ≠ 3 by omega]) (by decide)
  noAdjFree := by decide
  covered := fun b hb _ c hc => by
    simp [twoClassesLayout] at hb
    rcases hb with rfl | rfl | rfl
    · cases (hc.symm.trans (by decide : findSegListClass 48 = some 2)); decide
    · contradiction
    · cases (hc.symm.trans (by decide : findSegListClass 80 = some 3)); decide

/-- The class of 64 is 2, whose list holds only the 48-byte block: the fit is the 80-byte block
of list 3. -/
theorem findFit_complete_twoClasses : Inv twoClasses twoClassesLayout ∧ 64 ≤ 2 ^ 63 ∧
    ∃ cls r, findSegListClass 64 = some cls ∧ findFit twoClasses 64 = some r ∧
      ((∃ b ∈ twoClassesLayout.blocks, b.alloc = false ∧ 64 ≤ b.size) ↔ r ≠ 0) ∧
      (r ≠ 0 → ∃ c, cls ≤ c ∧ c < MAX_SEG_LIST_LENGTH ∧
        (∀ c', cls ≤ c' → c' < c → ∀ x ∈ twoClassesLayout.lists c', getSize twoClasses x < 64) ∧
        r ∈ twoClassesLayout.lists c ∧ FirstFitAt twoClasses 64 (twoClassesLayout.lists c) r) :=
  ⟨twoClasses_inv, by norm_num, findFit_complete twoClasses_inv (by norm_num)⟩

example : findSegListClass 64 = some 2 ∧ findFit twoClasses 64 = some 72 := by decide

end SystemsLabs.Malloc
