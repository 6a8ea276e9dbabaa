import SystemsLabs.Malloc.Heap
import Mathlib.Data.List.Nodup

/-!
# The layout of the heap

The abstract view the invariant of `mm.c` is stated in:

* `Blk`: a block of the implicit list, its header address, size and `alloc` bit; `Tiles a bs e`
  says that `bs` lie one after the other from `a` to `e`. Two slots `x.addr + o` and
  `y.addr + o'` of blocks of a tiling are the same address only inside the same block
  (`Tiles.eq_of_slot_eq`): every frame argument of the later modules is this lemma.
* `flagsBefore bs a`: the `(pre_min, pre_alloc)` bits a header at `a` must carry, read off the
  block that ends at `a`, or the prologue's `(false, true)`.
* `nextIn L x`, `prevIn L x`: the `next` and `prev` links of `x` in the free list `L`, `0` for
  `NULL`, with their behaviour under `List.erase` (unlinking) and `::` (LIFO insertion).
-/

namespace SystemsLabs.Malloc

/-- A block of the implicit list. -/
structure Blk where
  addr : Nat
  size : Nat
  alloc : Bool
  deriving DecidableEq, Repr

/-- `bs` lie one after the other from `a` up to `e`, each a nonzero multiple of 16 bytes. -/
def Tiles : Nat → List Blk → Nat → Prop
  | a, [], e => a = e
  | a, b :: bs, e => b.addr = a ∧ 16 ≤ b.size ∧ b.size % 16 = 0 ∧ Tiles (a + b.size) bs e

namespace Tiles
variable {a e : Nat} {bs : List Blk}

theorem le (h : Tiles a bs e) : a ≤ e := by
  induction bs generalizing a with
  | nil => exact le_of_eq h
  | cons b bs ih => have := ih h.2.2.2; omega

theorem bounds (h : Tiles a bs e) : ∀ b ∈ bs, a ≤ b.addr ∧ b.addr + b.size ≤ e ∧ 16 ≤ b.size ∧
    b.size % 16 = 0 := by
  induction bs generalizing a with
  | nil => simp
  | cons b bs ih =>
    obtain ⟨rfl, h16, hmod, ht⟩ := h
    have := ht.le
    intro x hx
    rcases List.mem_cons.1 hx with rfl | hx
    · exact ⟨le_rfl, this, h16, hmod⟩
    · have := ih ht x hx; omega

theorem pairwise (h : Tiles a bs e) : bs.Pairwise fun x y => x.addr + x.size ≤ y.addr := by
  induction bs generalizing a with
  | nil => exact List.Pairwise.nil
  | cons b bs ih =>
    obtain ⟨rfl, -, -, ht⟩ := h
    exact List.pairwise_cons.2 ⟨fun y hy => (ht.bounds y hy).1, ih ht⟩

theorem append_iff {l₁ l₂ : List Blk} : Tiles a (l₁ ++ l₂) e ↔ ∃ m, Tiles a l₁ m ∧ Tiles m l₂ e := by
  induction l₁ generalizing a with
  | nil => simp [Tiles]
  | cons b bs ih =>
    show (b.addr = a ∧ 16 ≤ b.size ∧ b.size % 16 = 0 ∧ Tiles (a + b.size) (bs ++ l₂) e) ↔ _
    rw [ih]
    simp only [Tiles]
    constructor
    · rintro ⟨h1, h2, h3, m, h4, h5⟩; exact ⟨m, ⟨h1, h2, h3, h4⟩, h5⟩
    · rintro ⟨m, ⟨h1, h2, h3, h4⟩, h5⟩; exact ⟨h1, h2, h3, m, h4, h5⟩

/-- Slots inside two blocks of a tiling coincide only inside one block. -/
theorem eq_of_slot_eq (h : Tiles a bs e) {x y : Blk} (hx : x ∈ bs) (hy : y ∈ bs) (o o' : Nat)
    (ho : o < x.size) (ho' : o' < y.size) (heq : x.addr + o = y.addr + o') : x = y := by
  rcases List.mem_iff_append.1 hx with ⟨s, t, rfl⟩
  have hp := h.pairwise
  rw [List.pairwise_append, List.pairwise_cons] at hp
  rcases List.mem_append.1 hy with hy | hy
  · have := hp.2.2 y hy x (List.mem_cons_self _ _); omega
  · rcases List.mem_cons.1 hy with rfl | hy
    · rfl
    · have := hp.2.1.1 y hy; omega

theorem eq_of_addr_eq (h : Tiles a bs e) {x y : Blk} (hx : x ∈ bs) (hy : y ∈ bs)
    (heq : x.addr = y.addr) : x = y :=
  h.eq_of_slot_eq hx hy 0 0 (by have := (h.bounds x hx).2.2.1; omega)
    (by have := (h.bounds y hy).2.2.1; omega) (by simpa using heq)

theorem eq_of_end_eq (h : Tiles a bs e) {x y : Blk} (hx : x ∈ bs) (hy : y ∈ bs)
    (heq : x.addr + x.size = y.addr + y.size) : x = y := by
  have := (h.bounds x hx).2.2.1; have := (h.bounds y hy).2.2.1
  exact h.eq_of_slot_eq hx hy (x.size - 1) (y.size - 1) (by omega) (by omega) (by omega)

/-- Two blocks of a tiling are one block or do not overlap. -/
theorem disjoint (h : Tiles a bs e) {x y : Blk} (hx : x ∈ bs) (hy : y ∈ bs) (hne : x ≠ y) :
    x.addr + x.size ≤ y.addr ∨ y.addr + y.size ≤ x.addr := by
  by_contra hc
  have := (h.bounds x hx).2.2.1; have := (h.bounds y hy).2.2.1
  exact hne (h.eq_of_slot_eq hx hy (max x.addr y.addr - x.addr) (max x.addr y.addr - y.addr)
    (by omega) (by omega) (by omega))

theorem addr_mod (h : Tiles a bs e) (ha : a % 16 = 8) : ∀ b ∈ bs, b.addr % 16 = 8 := by
  induction bs generalizing a with
  | nil => simp
  | cons b bs ih =>
    obtain ⟨rfl, -, hmod, ht⟩ := h
    intro x hx
    rcases List.mem_cons.1 hx with rfl | hx
    · exact ha
    · exact ih ht (by omega) x hx

theorem end_mod (h : Tiles a bs e) (ha : a % 16 = 8) : e % 16 = 8 := by
  induction bs generalizing a with
  | nil => exact h ▸ ha
  | cons b bs ih => obtain ⟨rfl, -, hmod, ht⟩ := h; exact ih ht (by omega)

/-- Every block ends at `e` or where another block starts. -/
theorem next_mem (h : Tiles a bs e) : ∀ x ∈ bs, x.addr + x.size = e ∨
    ∃ y ∈ bs, y.addr = x.addr + x.size := by
  induction bs generalizing a with
  | nil => simp
  | cons b bs ih =>
    obtain ⟨rfl, -, -, ht⟩ := h
    intro x hx
    rcases List.mem_cons.1 hx with rfl | hx
    · cases bs with
      | nil => exact .inl ht
      | cons c cs => exact .inr ⟨c, List.mem_cons_of_mem _ (List.mem_cons_self _ _), ht.1⟩
    · rcases ih ht x hx with h | ⟨y, hy, h⟩
      · exact .inl h
      · exact .inr ⟨y, List.mem_cons_of_mem _ hy, h⟩

/-- Every block starts at `a` or where another block ends. -/
theorem prev_mem (h : Tiles a bs e) : ∀ y ∈ bs, y.addr = a ∨ ∃ x ∈ bs, x.addr + x.size = y.addr := by
  induction bs generalizing a with
  | nil => simp
  | cons b bs ih =>
    obtain ⟨rfl, -, -, ht⟩ := h
    intro y hy
    rcases List.mem_cons.1 hy with rfl | hy
    · exact .inl rfl
    · rcases ih ht y hy with h | ⟨x, hx, h⟩
      · exact .inr ⟨b, List.mem_cons_self _ _, h.symm⟩
      · exact .inr ⟨x, List.mem_cons_of_mem _ hx, h⟩

end Tiles

/-! ## The flags a header carries -/

/-- `(pre_min, pre_alloc)` for a header at `a`: those of the block ending at `a`, or the
prologue's. -/
def flagsBefore (bs : List Blk) (a : Nat) : Bool × Bool :=
  match bs.find? fun x => x.addr + x.size = a with
  | some x => (decide (x.size = 16), x.alloc)
  | none => (false, true)

theorem flagsBefore_of_mem {a e : Nat} {bs : List Blk} (h : Tiles a bs e) {x : Blk} (hx : x ∈ bs)
    {p : Nat} (hp : x.addr + x.size = p) : flagsBefore bs p = (decide (x.size = 16), x.alloc) := by
  unfold flagsBefore
  cases hf : bs.find? fun x => x.addr + x.size = p with
  | none => exact absurd (by simpa using hp) (List.find?_eq_none.1 hf x hx)
  | some y =>
    have hy := List.mem_of_find?_eq_some hf
    have hyp : y.addr + y.size = p := by simpa using List.find?_some hf
    rw [h.eq_of_end_eq hy hx (hyp.trans hp.symm)]

theorem flagsBefore_of_forall {bs : List Blk} {p : Nat} (hp : ∀ x ∈ bs, x.addr + x.size ≠ p) :
    flagsBefore bs p = (false, true) := by
  unfold flagsBefore
  rw [List.find?_eq_none.2 fun x hx => by simpa using hp x hx]

/-! ## Free-list links -/

/-- The element after `x` in the list, `0` if `x` is last. -/
def nextIn : List Nat → Nat → Nat
  | [], _ => 0
  | y :: ys, x => if x = y then ys.headD 0 else nextIn ys x

/-- The element before `x` in the list, `0` if `x` is first. -/
def prevIn : List Nat → Nat → Nat
  | [], _ => 0
  | y :: ys, x => if ys.head? = some x then y else prevIn ys x

section Links
variable {L : List Nat} {a x : Nat}

theorem nextIn_of_not_mem (hx : x ∉ L) : nextIn L x = 0 := by
  induction L with
  | nil => rfl
  | cons y ys ih =>
    simp only [List.mem_cons, not_or] at hx
    rw [nextIn, if_neg hx.1, ih hx.2]

theorem prevIn_of_not_mem (hx : x ∉ L) : prevIn L x = 0 := by
  induction L with
  | nil => rfl
  | cons y ys ih =>
    simp only [List.mem_cons, not_or] at hx
    rw [prevIn, ih hx.2]
    cases ys with
    | nil => rfl
    | cons z zs =>
      simp only [List.head?_cons, Option.some.injEq]
      rw [if_neg fun (h : z = x) => hx.2 (h ▸ List.mem_cons_self _ _)]

theorem nextIn_mem_or_zero : nextIn L x ∈ L ∨ nextIn L x = 0 := by
  induction L with
  | nil => exact .inr rfl
  | cons y ys ih =>
    rw [nextIn]
    split_ifs
    · cases ys with
      | nil => exact .inr rfl
      | cons z zs => exact .inl (List.mem_cons_of_mem _ (List.mem_cons_self _ _))
    · rcases ih with h | h
      · exact .inl (List.mem_cons_of_mem _ h)
      · exact .inr h

theorem prevIn_mem_or_zero : prevIn L x ∈ L ∨ prevIn L x = 0 := by
  induction L with
  | nil => exact .inr rfl
  | cons y ys ih =>
    rw [prevIn]
    split_ifs
    · exact .inl (List.mem_cons_self _ _)
    · rcases ih with h | h
      · exact .inl (List.mem_cons_of_mem _ h)
      · exact .inr h

@[simp] theorem nextIn_cons (y : Nat) (ys : List Nat) (x : Nat) :
    nextIn (y :: ys) x = if x = y then ys.headD 0 else nextIn ys x := rfl

@[simp] theorem prevIn_singleton (y x : Nat) : prevIn [y] x = 0 := rfl

@[simp] theorem prevIn_cons_cons (y z : Nat) (t : List Nat) (x : Nat) :
    prevIn (y :: z :: t) x = if z = x then y else prevIn (z :: t) x := by
  simp [prevIn]

theorem head?_eq_some_iff_headD (hx : x ∈ L) : L.head? = some x ↔ L.headD 0 = x := by
  cases L with
  | nil => cases hx
  | cons y ys => simp

theorem prevIn_cons_self (hnd : (x :: L).Nodup) : prevIn (x :: L) x = 0 := by
  have hx := (List.nodup_cons.1 hnd).1
  rw [prevIn, prevIn_of_not_mem hx]
  cases L with
  | nil => rfl
  | cons z zs =>
    rw [if_neg]; simp only [List.head?_cons, Option.some.injEq]
    exact fun (h : z = x) => hx (h ▸ List.mem_cons_self _ _)

theorem erase_cons_of_ne {y : Nat} {ys : List Nat} (h : a ≠ y) :
    (y :: ys).erase a = y :: ys.erase a :=
  List.erase_cons_tail (by rw [beq_iff_eq]; exact Ne.symm h)

theorem prevIn_ne_of_not_mem {y : Nat} (hy : y ∉ L) (hy0 : y ≠ 0) : prevIn L a ≠ y := by
  rcases prevIn_mem_or_zero (L := L) (x := a) with h | h
  · exact fun h' => hy (h' ▸ h)
  · exact fun h' => hy0 (h' ▸ h)

theorem nextIn_ne_of_not_mem {y : Nat} (hy : y ∉ L) (hy0 : y ≠ 0) : nextIn L a ≠ y := by
  rcases nextIn_mem_or_zero (L := L) (x := a) with h | h
  · exact fun h' => hy (h' ▸ h)
  · exact fun h' => hy0 (h' ▸ h)

/-- Unlinking `a`: the element before it now points past it. -/
theorem nextIn_erase (hnd : L.Nodup) (h0 : 0 ∉ L) (ha : a ∈ L) (hx : x ∈ L) (hxa : x ≠ a) :
    nextIn (L.erase a) x = if x = prevIn L a then nextIn L a else nextIn L x := by
  induction L with
  | nil => simp at ha
  | cons y ys ih =>
    obtain ⟨hy, hnd'⟩ := List.nodup_cons.1 hnd
    have hy0 : y ≠ 0 := fun h => h0 (h ▸ List.mem_cons_self _ _)
    have h0' : 0 ∉ ys := fun h => h0 (List.mem_cons_of_mem _ h)
    by_cases hay : a = y
    · subst hay
      have hx' : x ∈ ys := (List.mem_cons.1 hx).resolve_left hxa
      rw [List.erase_cons_head, prevIn_cons_self hnd, if_neg (fun (h : x = 0) => h0' (h ▸ hx')),
        nextIn, if_neg hxa]
    · have ha' : a ∈ ys := (List.mem_cons.1 ha).resolve_left hay
      rw [erase_cons_of_ne hay, nextIn, nextIn, nextIn, if_neg hay, prevIn]
      rcases List.mem_cons.1 hx with rfl | hx'
      · rw [if_pos rfl, if_pos rfl]
        cases ys with
        | nil => simp at ha'
        | cons z t =>
          by_cases hza : z = a
          · subst hza; simp [nextIn]
          · simp only [List.head?_cons, Option.some.injEq, if_neg hza]
            rw [erase_cons_of_ne (Ne.symm hza), if_neg (prevIn_ne_of_not_mem hy hy0).symm]
            rfl
      · have hxy : x ≠ y := fun h => hy (h ▸ hx')
        rw [if_neg hxy, if_neg hxy, ih hnd' h0' ha' hx']
        by_cases hh : ys.head? = some a
        · obtain ⟨t, rfl⟩ : ∃ t, ys = a :: t := by
            cases ys with
            | nil => simp at hh
            | cons z t => simp only [List.head?_cons, Option.some.injEq] at hh; exact ⟨t, by rw [hh]⟩
          rw [if_pos hh, if_neg hxy, prevIn_cons_self hnd',
            if_neg (fun (h : x = 0) => h0' (h ▸ hx'))]
        · rw [if_neg hh]

/-- Unlinking `a`: the element after it now points back past it. -/
theorem prevIn_erase (hnd : L.Nodup) (h0 : 0 ∉ L) (ha : a ∈ L) (hx : x ∈ L) (hxa : x ≠ a) :
    prevIn (L.erase a) x = if x = nextIn L a then prevIn L a else prevIn L x := by
  induction L with
  | nil => simp at ha
  | cons y ys ih =>
    obtain ⟨hy, hnd'⟩ := List.nodup_cons.1 hnd
    have hy0 : y ≠ 0 := fun h => h0 (h ▸ List.mem_cons_self _ _)
    have h0' : 0 ∉ ys := fun h => h0 (List.mem_cons_of_mem _ h)
    by_cases hay : a = y
    · subst hay
      have hx' : x ∈ ys := (List.mem_cons.1 hx).resolve_left hxa
      rw [List.erase_cons_head, prevIn_cons_self hnd, nextIn, if_pos rfl]
      cases ys with
      | nil => simp at hx'
      | cons z t =>
        by_cases hzx : z = x
        · subst hzx; rw [List.headD_cons, if_pos rfl, prevIn_cons_self hnd']
        · simp [hzx, Ne.symm hzx]
    · have ha' : a ∈ ys := (List.mem_cons.1 ha).resolve_left hay
      rw [erase_cons_of_ne hay]
      by_cases hxy : x = y
      · subst hxy
        have hne : x ≠ nextIn (x :: ys) a := by
          rw [nextIn_cons, if_neg hay]; exact (nextIn_ne_of_not_mem hy hy0).symm
        rw [prevIn_cons_self (hnd.sublist ((List.erase_sublist a ys).cons₂ _)), if_neg hne,
          prevIn_cons_self hnd]
      · have hx' : x ∈ ys := (List.mem_cons.1 hx).resolve_left hxy
        cases ys with
        | nil => simp at ha'
        | cons z t =>
          have hz : z ∉ t := (List.nodup_cons.1 hnd').1
          have hz0 : z ≠ 0 := fun h => h0' (h ▸ List.mem_cons_self _ _)
          by_cases hza : z = a
          · subst hza
            have hxt : x ∈ t := (List.mem_cons.1 hx').resolve_left hxa
            rw [List.erase_cons_head]
            cases t with
            | nil => simp at hxt
            | cons w u =>
              by_cases hwx : w = x
              · simp [hay, hwx]
              · simp [hay, hwx, Ne.symm hwx, hxa, Ne.symm hxa]
          · have hIH := ih hnd' h0' ha' hx'
            rw [erase_cons_of_ne (Ne.symm hza)] at hIH ⊢
            by_cases hzx : z = x
            · subst hzx
              have hzt : nextIn t a ≠ z := nextIn_ne_of_not_mem hz hz0
              simp [hay, hza, Ne.symm hza, hzt, Ne.symm hzt]
            · simp only [prevIn_cons_cons, nextIn_cons, if_neg hzx, if_neg hay, if_neg hza,
                if_neg (Ne.symm hza)] at hIH ⊢
              exact hIH

/-- An element after the head has a predecessor. -/
theorem prevIn_ne_zero (hnd : L.Nodup) (h0 : 0 ∉ L) (ha : a ∈ L) (hh : L.head? ≠ some a) :
    prevIn L a ≠ 0 := by
  induction L with
  | nil => simp at ha
  | cons y ys ih =>
    have hay : a ≠ y := fun h => hh (by simp [h])
    have ha' : a ∈ ys := (List.mem_cons.1 ha).resolve_left hay
    rw [prevIn]
    split_ifs with hys
    · exact fun h => h0 (h ▸ List.mem_cons_self _ _)
    · exact ih (List.nodup_cons.1 hnd).2 (fun h => h0 (List.mem_cons_of_mem _ h)) ha' hys

theorem headD_erase (hnd : L.Nodup) (h0 : 0 ∉ L) (ha : a ∈ L) :
    (L.erase a).headD 0 = if prevIn L a = 0 then nextIn L a else L.headD 0 := by
  cases L with
  | nil => simp at ha
  | cons y ys =>
    by_cases hay : a = y
    · subst hay; rw [List.erase_cons_head, prevIn_cons_self hnd, if_pos rfl, nextIn, if_pos rfl]
    · have hne : prevIn (y :: ys) a ≠ 0 :=
        prevIn_ne_zero hnd h0 ha (by simpa using Ne.symm hay)
      rw [erase_cons_of_ne hay, if_neg hne]; rfl

end Links

end SystemsLabs.Malloc
