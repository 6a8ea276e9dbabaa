import SystemsLabs.Malloc.Heap

/-!
# What `malloc` makes of the request size

`malloc` uses its argument twice: `size == 0` and `asize = round_up(size + wsize, dsize)`.
Both steps are `size_t` arithmetic, and near the top of the range they go wrong in two ways.

* `malloc_max_eq_malloc_one`: `size + wsize` wraps for `size ≥ 2 ^ 64 - 8`, and a request of
  `2 ^ 64 - 1` bytes is served exactly as a request of one byte, from a 16-byte block.
* `malloc_undefined_of_gt`: from `2 ^ 63 - 7` to `2 ^ 64 - 24` the adjusted size is above `2 ^ 63`,
  and `find_fit` asks `find_seg_list_class` for its class, whose loop never exits.
-/

namespace SystemsLabs.Malloc

theorem adjustedSize_max : adjustedSize (2 ^ 64 - 1) = adjustedSize 1 := by decide

example : adjustedSize 1 = 16 := by decide

/-- A request of `2 ^ 64 - 1` bytes is a request of one byte. -/
theorem malloc_max_eq_malloc_one (h : Heap) : malloc h (2 ^ 64 - 1) = malloc h 1 := by
  simp only [malloc, adjustedSize_max, show (2 ^ 64 - 1 : Nat) ≠ 0 by decide, one_ne_zero]

/-- On an initialized heap, requests just above `2 ^ 63` bytes have no defined outcome. -/
theorem malloc_undefined_of_gt (h : Heap) (hinit : h.heapStart ≠ 0) {n : Nat}
    (hlo : 2 ^ 63 - 8 < n) (hhi : n ≤ 2 ^ 64 - 24) : malloc h n = none := by
  have hfit : findFit h (adjustedSize n) = none := by
    have := (adjustedSize_spec hhi).2.1
    simp [findFit, findSegListClass_of_gt (by omega : 2 ^ 63 < adjustedSize n)]
  simp [malloc, hinit, hfit, show n ≠ 0 by omega]

theorem malloc_undefined_at_pow63 :
    (⟨fun _ => 0, 8, fun _ => 0, 0, 16, fun _ => false, 0⟩ : Heap).heapStart ≠ 0 ∧
      2 ^ 63 - 8 < 2 ^ 63 ∧ 2 ^ 63 ≤ 2 ^ 64 - 24 ∧
      malloc ⟨fun _ => 0, 8, fun _ => 0, 0, 16, fun _ => false, 0⟩ (2 ^ 63) = none :=
  ⟨by decide, by decide, by decide, malloc_undefined_of_gt _ (by decide) (by decide) (by decide)⟩

end SystemsLabs.Malloc
