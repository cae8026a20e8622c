import Mathlib.Data.List.Dedup
import Mathlib.Data.List.Sort
import Dolphin.Tensor.Mask

/-!
# Sorting a tensor with its indices

`argsort xs` are the indices `torch.sort(xs)` returns and `sort xs` its values.
The order that `torch.sort` gives to equal elements is not documented; here it
is the order of their positions, and no lemma depends on it.
-/

namespace Dolphin.Tensor

variable {α β : Type*} [LinearOrder α] [Inhabited α]

/-- `torch.sort(xs)[1]`: the positions in the order of their values. -/
def argsort (xs : List α) : List Nat :=
  (List.range xs.length).insertionSort fun i j => xs.getD i default ≤ xs.getD j default

/-- `torch.sort(xs)[0]`. -/
def sort (xs : List α) : List α := gather xs (argsort xs)

/-- The sort indices are a permutation of the positions. -/
theorem argsort_perm (xs : List α) : (argsort xs).Perm (List.range xs.length) :=
  List.perm_insertionSort _ _

@[simp] theorem argsort_length (xs : List α) : (argsort xs).length = xs.length := by
  simpa using (argsort_perm xs).length_eq

theorem argsort_lt {xs : List α} {i : Nat} (member : i ∈ argsort xs) : i < xs.length := by
  simpa using (argsort_perm xs).mem_iff.mp member

theorem argsort_nodup (xs : List α) : (argsort xs).Nodup :=
  (argsort_perm xs).nodup_iff.mpr List.nodup_range

/-- Sorting permutes the elements. -/
theorem sort_perm (xs : List α) : (sort xs).Perm xs := gather_perm (argsort_perm xs)

@[simp] theorem sort_length (xs : List α) : (sort xs).length = xs.length :=
  (sort_perm xs).length_eq

@[simp] theorem mem_sort {xs : List α} {x : α} : x ∈ sort xs ↔ x ∈ xs :=
  (sort_perm xs).mem_iff

theorem sort_nodup {xs : List α} (distinct : xs.Nodup) : (sort xs).Nodup :=
  (sort_perm xs).nodup_iff.mpr distinct

/-- The values do not decrease in the order of the sort indices. -/
theorem argsort_pairwise (xs : List α) :
    (argsort xs).Pairwise fun i j => xs.getD i default ≤ xs.getD j default := by
  let byValue : Nat → Nat → Prop := fun i j => xs.getD i default ≤ xs.getD j default
  have total : Std.Total byValue := ⟨fun i j => le_total _ _⟩
  have transitive : IsTrans Nat byValue := ⟨fun _ _ _ first second => le_trans first second⟩
  exact List.pairwise_insertionSort byValue _

/-- Sorted values do not decrease. -/
theorem sort_pairwise (xs : List α) : (sort xs).Pairwise (· ≤ ·) :=
  List.pairwise_map.mpr (argsort_pairwise xs)

/-- Reordering a column by the sort indices of its ids gives the column of the
sorted ids. -/
theorem gather_argsort_map [Inhabited β] (f : α → β) (xs : List α) :
    gather (xs.map f) (argsort xs) = (sort xs).map f :=
  gather_map f fun _ member => argsort_lt member

/-- The value at a sorted position is the element the sort index points at. -/
theorem sort_getElem? {xs : List α} {i j : Nat} (index : (argsort xs)[i]? = some j) :
    (sort xs)[i]? = xs[j]? := by
  have inside : j < xs.length := argsort_lt (List.mem_of_getElem? index)
  simp [sort, gather, index, inside]

/-- Values written to distinct positions may be written in any order. -/
theorem indexAssign_gather_perm [Inhabited β] {xs vals : List β} {idx order : List Nat}
    (distinct : idx.Nodup) (aligned : vals.length = idx.length)
    (bound : ∀ i ∈ idx, i < xs.length) (perm : order.Perm (List.range idx.length)) :
    indexAssign xs (gather idx order) (gather vals order) = indexAssign xs idx vals := by
  have inside : ∀ k ∈ order, k < idx.length := fun k member => by
    simpa using perm.mem_iff.mp member
  have gathered : (gather idx order).Perm idx := gather_perm perm
  apply List.ext_getElem?
  intro i
  by_cases written : i ∈ idx
  · obtain ⟨k, index⟩ := List.getElem?_of_mem written
    have room : k < idx.length := (List.getElem?_eq_some_iff.mp index).1
    have value : vals[k]? = some vals[k] := List.getElem?_eq_getElem (aligned ▸ room)
    obtain ⟨j, place⟩ := List.getElem?_of_mem (perm.mem_iff.mpr (List.mem_range.mpr room))
    have moved : (gather idx order)[j]? = some i := by
      simp [gather, place, List.getD_eq_getElem?_getD, index]
    have movedValue : (gather vals order)[j]? = some vals[k] := by
      simp [gather, place, List.getD_eq_getElem?_getD, value]
    rw [indexAssign_own distinct index value (bound i written),
      indexAssign_own (gathered.nodup_iff.mpr distinct) moved movedValue (bound i written)]
  · have untouched : i ∉ gather idx order := fun member => written (gathered.mem_iff.mp member)
    rw [indexAssign_other written, indexAssign_other untouched]

/-! ## Distinct values -/

/-- `torch.unique(xs)`: the distinct values, sorted. -/
def unique (xs : List α) : List α := sort xs.dedup

@[simp] theorem mem_unique {xs : List α} {x : α} : x ∈ unique xs ↔ x ∈ xs := by
  simp [unique]

theorem unique_nodup (xs : List α) : (unique xs).Nodup :=
  sort_nodup xs.nodup_dedup

theorem unique_pairwise (xs : List α) : (unique xs).Pairwise (· ≤ ·) :=
  sort_pairwise _

/-- The distinct values of a column of ids in which every id occurs. -/
theorem unique_eq_range {xs : List Nat} {count : Nat} (ids : ∀ x, x ∈ xs ↔ x < count) :
    unique xs = List.range count := by
  have same : (unique xs).Perm (List.range count) :=
    (List.perm_ext_iff_of_nodup (unique_nodup xs) List.nodup_range).mpr (by simp [ids])
  exact same.eq_of_pairwise' (unique_pairwise xs)
    (List.pairwise_lt_range.imp Nat.le_of_lt)

/-! ## Sets of ids -/

/-- A set of ids as `torch.unique` returns it: increasing and without repetition. -/
@[ext]
structure IdSet where
  ids : List Nat
  increasing : ids.Pairwise (· < ·)
  deriving DecidableEq

namespace IdSet

/-- `torch.unique(xs)` is such a set. -/
def ofList (xs : List Nat) : IdSet where
  ids := unique xs
  increasing :=
    ((unique_pairwise xs).and (unique_nodup xs)).imp fun pair => lt_of_le_of_ne pair.1 pair.2

theorem nodup (set : IdSet) : set.ids.Nodup := set.increasing.imp Nat.ne_of_lt

theorem sorted (set : IdSet) : set.ids.Pairwise (· ≤ ·) := set.increasing.imp Nat.le_of_lt

/-- Two sets with the same ids are the same list. -/
theorem ids_eq (set : IdSet) {xs : List Nat} (increasing : xs.Pairwise (· < ·))
    (same : ∀ x, x ∈ xs ↔ x ∈ set.ids) : xs = set.ids := by
  have perm : xs.Perm set.ids :=
    (List.perm_ext_iff_of_nodup (increasing.imp Nat.ne_of_lt) set.nodup).mpr same
  exact perm.eq_of_pairwise' (increasing.imp Nat.le_of_lt) set.sorted

/-- Sorting changes nothing. -/
theorem sort_ids (set : IdSet) : sort set.ids = set.ids := by
  refine set.ids_eq ?_ fun x => mem_sort
  exact ((sort_pairwise set.ids).and (sort_nodup set.nodup)).imp fun pair =>
    lt_of_le_of_ne pair.1 pair.2

end IdSet

end Dolphin.Tensor
