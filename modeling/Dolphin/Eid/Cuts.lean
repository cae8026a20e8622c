import Dolphin.Sampler.PartMaps

/-!
# Successive slices

Lists of batches that are the slices of one list, one after the other. A slice ends with
the list at the latest.
-/

namespace Dolphin.Eid

open Dolphin.Sampler

variable {α : Type}

/-- The head and the tail of what is left from an index on. -/
theorem drop_eq_cons {xs rest : List α} {i : Nat} {x : α} (suffix : xs.drop i = x :: rest) :
    xs[i]? = some x ∧ xs.drop (i + 1) = rest := by
  constructor
  · rw [← List.head?_drop, suffix, List.head?_cons]
  · rw [← List.tail_drop, suffix, List.tail_cons]

@[simp] theorem slice_self (xs : List α) (start : Nat) : slice xs start start = [] := by
  simp [slice]

@[simp] theorem slice_length (xs : List α) (start stop : Nat) :
    (slice xs start stop).length = min stop xs.length - start := by
  rw [slice, List.length_drop, List.length_take]

/-- Two slices that meet. -/
theorem slice_append (xs : List α) {start middle stop : Nat} (left : start ≤ middle)
    (right : middle ≤ stop) :
    slice xs start middle ++ slice xs middle stop = slice xs start stop := by
  have rest : xs.drop middle = (xs.drop start).drop (middle - start) := by
    rw [List.drop_drop, Nat.add_sub_cancel' left]
  have total : stop - start = (middle - start) + (stop - middle) := by omega
  simp only [slice, List.drop_take]
  rw [rest, total, List.take_add]

/-- A slice of row indices. -/
theorem slice_range (count start stop : Nat) :
    slice (List.range count) start stop = List.range' start (min stop count - start) := by
  apply List.ext_getElem
  · rw [slice_length, List.length_range, List.length_range']
  · intro i inSlice inRange
    simp [slice]

theorem slice_ne_nil {xs : List α} {start stop : Nat} (wide : start < stop)
    (inside : start < xs.length) : slice xs start stop ≠ [] := by
  intro empty
  have length := slice_length xs start stop
  rw [empty, List.length_nil] at length
  omega

/-- The batches are the slices of the list between `start` and `stop`, one after the
other. -/
inductive Cuts (xs : List α) : Nat → List (List α) → Nat → Prop where
  | nil (stop : Nat) : Cuts xs stop [] stop
  | cons {start middle stop : Nat} {batches : List (List α)} (wide : start < middle)
      (inside : start < xs.length) (rest : Cuts xs middle batches stop) :
      Cuts xs start (slice xs start middle :: batches) stop

namespace Cuts

variable {xs : List α} {start stop : Nat} {batches : List (List α)}

theorem le (cuts : Cuts xs start batches stop) : start ≤ stop := by
  induction cuts with
  | nil => exact Nat.le_refl _
  | cons wide _ _ ih => omega

theorem flatten (cuts : Cuts xs start batches stop) : batches.flatten = slice xs start stop := by
  induction cuts with
  | nil stop => rw [slice_self, List.flatten_nil]
  | cons wide _ rest ih =>
      rw [List.flatten_cons, ih, slice_append xs (Nat.le_of_lt wide) rest.le]

theorem ne_nil (cuts : Cuts xs start batches stop) : ∀ batch ∈ batches, batch ≠ [] := by
  induction cuts with
  | nil => simp
  | cons wide inside _ ih =>
      intro batch member
      rcases List.mem_cons.mp member with rfl | member
      · exact slice_ne_nil wide inside
      · exact ih batch member

end Cuts

end Dolphin.Eid
