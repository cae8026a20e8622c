import Dolphin.Tensor.Sort

/-!
# Looking ids up in a sorted tensor

`findIndexAndSet` is the binary search each GPU thread of `findSameIndex` runs
for one element. `indexTable` starts at −1 everywhere; a search without a hit
leaves its entry, which is `none` here. Indexing a tensor with −1 reads its last
element, so `wrapGather` does the same for `none`.
-/

namespace Dolphin.Graph

open Dolphin.Tensor

variable {α β : Type*} [LinearOrder α] [Inhabited α]

/-- The search loop on `table[left..right]`, with `stop` for `right + 1`. The
range shrinks at every turn, so the length of the table is fuel enough. -/
def findIndexAndSet (table : List α) (id : α) : Nat → Nat → Nat → Option Nat
  | 0, _, _ => none
  | fuel + 1, left, stop =>
      if left < stop then
        let mid := (left + (stop - 1)) / 2
        if id = table.getD mid default then some mid
        else if table.getD mid default < id then findIndexAndSet table id fuel (mid + 1) stop
        else findIndexAndSet table id fuel left mid
      else none

/-- `dgl.findSameIndex(tensor, table, table1, table2)` as far as `table1`: the
index in `table` of every element of `tensor`. -/
def findSameIndex (tensor table : List α) : List (Option Nat) :=
  tensor.map fun id => findIndexAndSet table id table.length 0 table.length

/-- `dgl.findSameNode(tensor, table, table1, table2)` as far as `table1`: the same
search, which only marks the elements it hits. -/
def findSameNode (tensor table : List α) : List Bool :=
  (findSameIndex tensor table).map Option.isSome

/-- `xs[index]` where an index may still be the initial −1. -/
def wrapGather [Inhabited β] (xs : List β) (index : List (Option Nat)) : List β :=
  index.map fun i => xs.getD (i.getD (xs.length - 1)) default

/-- `find_indices(tensor1, tensor2)`: where the elements of the first tensor lie
in the second. -/
def findIndices (tensor1 tensor2 : List α) : List Nat :=
  wrapGather (argsort tensor2) (findSameIndex tensor1 (sort tensor2))

/-! ## The search -/

/-- A hit holds the id. -/
theorem findIndexAndSet_sound {table : List α} {id : α} {fuel left stop i : Nat}
    (bounded : stop ≤ table.length) (found : findIndexAndSet table id fuel left stop = some i) :
    table[i]? = some id := by
  induction fuel generalizing left stop with
  | zero => simp [findIndexAndSet] at found
  | succ fuel ih =>
      rw [findIndexAndSet] at found
      split at found
      case isFalse => simp at found
      case isTrue open_ =>
          have inside : (left + (stop - 1)) / 2 < table.length := by omega
          simp only at found
          split at found
          case isTrue same =>
              obtain rfl : (left + (stop - 1)) / 2 = i := by simpa using found
              simp [same, List.getD_eq_getElem?_getD, inside]
          case isFalse =>
              split at found
              · exact ih bounded found
              · exact ih (by omega) found

/-- A hit lies in the range. -/
theorem findIndexAndSet_lt {table : List α} {id : α} {fuel left stop i : Nat}
    (found : findIndexAndSet table id fuel left stop = some i) : i < stop := by
  induction fuel generalizing left stop with
  | zero => simp [findIndexAndSet] at found
  | succ fuel ih =>
      rw [findIndexAndSet] at found
      split at found
      case isFalse => simp at found
      case isTrue isOpen =>
          simp only at found
          split at found
          case isTrue =>
              obtain rfl : (left + (stop - 1)) / 2 = i := by simpa using found
              omega
          case isFalse =>
              split at found
              · exact ih found
              · have before := ih found
                omega

/-- In a sorted table an id that occurs in the range is found. -/
theorem findIndexAndSet_complete {table : List α} (sorted : table.Pairwise (· ≤ ·)) {id : α}
    {fuel left stop k : Nat} (bounded : stop ≤ table.length) (enough : stop - left ≤ fuel)
    (low : left ≤ k) (high : k < stop) (occurs : table[k]? = some id) :
    ∃ i, findIndexAndSet table id fuel left stop = some i := by
  induction fuel generalizing left stop with
  | zero => omega
  | succ fuel ih =>
      rw [findIndexAndSet, if_pos (by omega)]
      have inside : (left + (stop - 1)) / 2 < table.length := by omega
      have here : k < table.length := by omega
      obtain rfl : table[k] = id := by simpa [here] using occurs
      have value : table.getD ((left + (stop - 1)) / 2) default =
          table[(left + (stop - 1)) / 2] := by
        simp [List.getD_eq_getElem?_getD, inside]
      simp only [value]
      have order : ∀ {i j} (iBound : i < table.length) (jBound : j < table.length),
          i ≤ j → table[i] ≤ table[j] := by
        intro i j iBound jBound le
        rcases Nat.eq_or_lt_of_le le with rfl | lt
        · exact le_rfl
        · exact List.pairwise_iff_getElem.mp sorted i j iBound jBound lt
      split
      case isTrue => exact ⟨_, rfl⟩
      case isFalse different =>
          split
          case isTrue below =>
              -- every position up to the middle holds less than the id
              have right : (left + (stop - 1)) / 2 < k := by
                by_contra before
                exact absurd (order here inside (by omega)) (not_le.mpr below)
              exact ih bounded (by omega) (by omega) high
          case isFalse notBelow =>
              have left' : k < (left + (stop - 1)) / 2 := by
                by_contra after
                have atMost := order inside here (by omega)
                exact different (le_antisymm (not_lt.mp notBelow) atMost)
              exact ih (by omega) (by omega) low left'

/-- Every id that occurs in a sorted table is found where it occurs. -/
theorem findSameIndex_mem {table : List α} (sorted : table.Pairwise (· ≤ ·)) {id : α}
    (occurs : id ∈ table) :
    ∃ i, findIndexAndSet table id table.length 0 table.length = some i ∧
      table[i]? = some id := by
  obtain ⟨k, position⟩ := List.getElem?_of_mem occurs
  have inside : k < table.length := (List.getElem?_eq_some_iff.mp position).1
  have enough : table.length - 0 ≤ table.length := by omega
  obtain ⟨i, found⟩ := findIndexAndSet_complete sorted le_rfl enough (Nat.zero_le k) inside
    position
  exact ⟨i, found, findIndexAndSet_sound le_rfl found⟩

/-- In a sorted table exactly the ids that occur are marked. -/
theorem findSameNode_eq_isin {table : List α} (sorted : table.Pairwise (· ≤ ·))
    (tensor : List α) : findSameNode tensor table = isin tensor table false := by
  unfold findSameNode findSameIndex isin
  rw [List.map_map]
  refine List.map_congr_left fun id _ => ?_
  by_cases occurs : id ∈ table
  · obtain ⟨i, found, -⟩ := findSameIndex_mem sorted occurs
    simp [found, occurs]
  · have missed : findIndexAndSet table id table.length 0 table.length = none := by
      rw [Option.eq_none_iff_forall_ne_some]
      intro i found
      exact occurs (List.mem_of_getElem? (findIndexAndSet_sound le_rfl found))
    simp [missed, occurs]

/-- The rows of a sorted table that are looked up by id. -/
theorem wrapGather_findSameIndex [Inhabited β] (f : α → β) {table ids : List α}
    (sorted : table.Pairwise (· ≤ ·)) (contained : ∀ x ∈ ids, x ∈ table) :
    wrapGather (table.map f) (findSameIndex ids table) = ids.map f := by
  unfold wrapGather findSameIndex
  rw [List.map_map]
  refine List.map_congr_left fun id member => ?_
  obtain ⟨i, found, value⟩ := findSameIndex_mem sorted (contained id member)
  simp [found, List.getD_eq_getElem?_getD, value]

/-! ## Looking up in an unsorted tensor -/

/-- The position `find_indices` returns for one element. -/
def position (tensor : List α) (x : α) : Nat :=
  (argsort tensor).getD ((findIndexAndSet (sort tensor) x (sort tensor).length 0
    (sort tensor).length).getD ((argsort tensor).length - 1)) default

theorem findIndices_eq_map (tensor1 tensor2 : List α) :
    findIndices tensor1 tensor2 = tensor1.map (position tensor2) := by
  unfold findIndices wrapGather findSameIndex
  rw [List.map_map]
  rfl

/-- An element that occurs is found at one of its positions. -/
theorem position_spec {tensor : List α} {x : α} (occurs : x ∈ tensor) :
    tensor[position tensor x]? = some x := by
  obtain ⟨i, found, value⟩ := findSameIndex_mem (sort_pairwise tensor) (mem_sort.mpr occurs)
  have bound : i < (argsort tensor).length := by
    simpa using (List.getElem?_eq_some_iff.mp value).1
  have index : (argsort tensor)[i]? = some (position tensor x) := by
    unfold position
    rw [found, Option.getD_some, List.getD_eq_getElem?_getD, List.getElem?_eq_getElem bound,
      Option.getD_some]
  rw [← sort_getElem? index, value]

/-- A column gathered at the found positions is the column of the looked up ids. -/
theorem gather_findIndices [Inhabited β] (f : α → β) {tensor1 tensor2 : List α}
    (contained : ∀ x ∈ tensor1, x ∈ tensor2) :
    gather (tensor2.map f) (findIndices tensor1 tensor2) = tensor1.map f := by
  rw [findIndices_eq_map]
  unfold gather
  rw [List.map_map]
  apply List.map_congr_left
  intro x member
  simp [List.getD_eq_getElem?_getD, position_spec (contained x member)]

end Dolphin.Graph
