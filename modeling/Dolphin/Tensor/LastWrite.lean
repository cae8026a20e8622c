import Dolphin.Tensor.Sort

/-!
# Scatters that keep the last write

`torch.unique` returns the distinct values and, for every element, the position of its
value among them. The positions of the elements scattered to these, one after the other,
leave for every value the position of its last occurrence.
-/

namespace Dolphin.Tensor

variable {α β : Type*}

/-- A value's last position. -/
def LastAt (xs : List α) (x : α) (i : Nat) : Prop :=
  xs[i]? = some x ∧ ∀ j, xs[j]? = some x → j ≤ i

namespace LastAt

variable {xs : List α} {x y : α} {i : Nat}

theorem lt (last : LastAt xs x i) : i < xs.length :=
  (List.getElem?_eq_some_iff.mp last.1).1

theorem mem (last : LastAt xs x i) : x ∈ xs := List.mem_of_getElem? last.1

instance [DecidableEq α] : Decidable (LastAt xs x i) :=
  decidable_of_iff (xs[i]? = some x ∧ ∀ j < xs.length, xs[j]? = some x → j ≤ i) <|
    and_congr_right fun _ => forall_congr' fun _ =>
      ⟨fun bound found => bound (List.getElem?_eq_some_iff.mp found).1 found,
        fun bound _ => bound⟩

/-- After the last position the value is not there any more. -/
theorem notMem_of_zero (last : LastAt (y :: xs) x 0) : x ∉ xs := by
  intro later
  obtain ⟨j, found⟩ := List.getElem?_of_mem later
  exact absurd (last.2 (j + 1) found) (Nat.not_succ_le_zero j)

theorem of_cons (last : LastAt (y :: xs) x (i + 1)) : LastAt xs x i :=
  ⟨last.1, fun j found => Nat.le_of_succ_le_succ (last.2 (j + 1) found)⟩

/-- Every element has a last position. -/
theorem of_mem (member : x ∈ xs) : ∃ i, LastAt xs x i := by
  induction xs with
  | nil => cases member
  | cons y ys ih =>
      by_cases later : x ∈ ys
      · obtain ⟨i, value, greatest⟩ := ih later
        refine ⟨i + 1, value, fun j found => ?_⟩
        cases j with
        | zero => exact Nat.zero_le _
        | succ j => exact Nat.succ_le_succ (greatest j found)
      · have own : x = y := (List.mem_cons.mp member).resolve_right later
        refine ⟨0, by rw [own]; rfl, fun j found => ?_⟩
        cases j with
        | zero => exact le_rfl
        | succ j =>
            rw [List.getElem?_cons_succ] at found
            exact absurd (List.mem_of_getElem? found) later

/-- The last position in a concatenation whose second part has the value. -/
theorem append_right {ys : List α} (last : LastAt ys x i) :
    LastAt (xs ++ ys) x (xs.length + i) := by
  refine ⟨?_, fun j found => ?_⟩
  · rw [List.getElem?_append_right (Nat.le_add_right _ _), Nat.add_sub_cancel_left]
    exact last.1
  · by_cases inFirst : j < xs.length
    · omega
    · rw [List.getElem?_append_right (Nat.le_of_not_lt inFirst)] at found
      have bound := last.2 _ found
      omega

/-- The last position in a concatenation whose second part does not have the value. -/
theorem append_left {ys : List α} (last : LastAt xs x i) (other : x ∉ ys) :
    LastAt (xs ++ ys) x i := by
  refine ⟨?_, fun j found => ?_⟩
  · rw [List.getElem?_append_left last.lt]
    exact last.1
  · by_cases inFirst : j < xs.length
    · rw [List.getElem?_append_left inFirst] at found
      exact last.2 j found
    · rw [List.getElem?_append_right (Nat.le_of_not_lt inFirst)] at found
      exact absurd (List.mem_of_getElem? found) other

end LastAt

section Position

variable [DecidableEq α]

/-- The last position of a value, if it has one. -/
def lastPosition : List α → α → Option Nat
  | [], _ => none
  | y :: ys, x =>
      match lastPosition ys x with
      | some i => some (i + 1)
      | none => if y = x then some 0 else none

theorem lastPosition_missing {xs : List α} {x : α} (missing : x ∉ xs) :
    lastPosition xs x = none := by
  induction xs with
  | nil => rfl
  | cons y ys ih =>
      obtain ⟨other, later⟩ : x ≠ y ∧ x ∉ ys := by simpa using missing
      rw [lastPosition, ih later]
      exact if_neg (Ne.symm other)

theorem lastPosition_eq {xs : List α} {x : α} {i : Nat} (last : LastAt xs x i) :
    lastPosition xs x = some i := by
  induction xs generalizing i with
  | nil => exact absurd last.mem List.not_mem_nil
  | cons y ys ih =>
      rw [lastPosition]
      cases i with
      | zero =>
          rw [lastPosition_missing last.notMem_of_zero]
          exact if_pos (Option.some.inj last.1)
      | succ i => rw [ih last.of_cons]

end Position

/-- A position that is written several times holds what is written last. -/
theorem indexAssign_last {idx : List Nat} {xs vals : List α} {k i : Nat} {v : α}
    (last : LastAt idx i k) (value : vals[k]? = some v) (bound : i < xs.length) :
    (indexAssign xs idx vals)[i]? = some v := by
  induction idx generalizing xs vals k with
  | nil => simpa using last.1
  | cons j idx ih =>
      cases vals with
      | nil => simp at value
      | cons w vals =>
          rw [indexAssign_cons]
          cases k with
          | zero =>
              obtain rfl : j = i := by simpa using last.1
              obtain rfl : w = v := by simpa using value
              rw [indexAssign_other last.notMem_of_zero, List.getElem?_set_self bound]
          | succ k => exact ih last.of_cons value (by simpa using bound)

/-- A position that is written holds one of the values written to it. -/
theorem exists_indexAssign {idx : List Nat} {xs vals : List α} {i : Nat} (written : i ∈ idx)
    (aligned : vals.length = idx.length) (bound : i < xs.length) :
    ∃ (k : Nat) (v : α), idx[k]? = some i ∧ vals[k]? = some v ∧ (indexAssign xs idx vals)[i]? = some v := by
  obtain ⟨k, last⟩ := LastAt.of_mem written
  have room : k < vals.length := aligned ▸ last.lt
  have value : vals[k]? = some vals[k] := List.getElem?_eq_getElem room
  exact ⟨k, vals[k], last.1, value, indexAssign_last last value bound⟩

/-! ## The last occurrences -/

section Occurrences

variable [LinearOrder α] [Inhabited α]

/-- `torch.unique(xs, return_inverse=True)[1]`. -/
def inverse (xs : List α) : List Nat := xs.map fun x => (unique xs).idxOf x

theorem inverse_getD {xs : List α} {i : Nat} (inside : i < xs.length) :
    (inverse xs).getD i default = (unique xs).idxOf (xs.getD i default) := by
  simp [inverse, inside]

/-- The numbers are those of the distinct values. -/
theorem mem_inverse {xs : List α} {k : Nat} : k ∈ inverse xs ↔ k < (unique xs).length := by
  constructor
  · intro member
    obtain ⟨x, value, rfl⟩ := List.mem_map.mp member
    exact List.idxOf_lt_length_of_mem (mem_unique.mpr value)
  · intro inside
    exact List.mem_map.mpr ⟨(unique xs)[k], mem_unique.mp (List.getElem_mem inside),
      (unique_nodup xs).idxOf_getElem k inside⟩

/-- In the order of their numbers the values do not decrease. -/
theorem argsort_inverse_pairwise (xs : List α) :
    (argsort (inverse xs)).Pairwise fun i j => xs.getD i default ≤ xs.getD j default := by
  refine List.Pairwise.imp_of_mem (fun {i j} memberI memberJ order => ?_)
    (argsort_pairwise (inverse xs))
  have insideI : i < xs.length := by simpa [inverse] using argsort_lt memberI
  have insideJ : j < xs.length := by simpa [inverse] using argsort_lt memberJ
  rw [inverse_getD insideI, inverse_getD insideJ] at order
  have numbered {k : Nat} (inside : k < xs.length) :
      ∃ room : (unique xs).idxOf (xs.getD k default) < (unique xs).length,
        (unique xs)[(unique xs).idxOf (xs.getD k default)] = xs.getD k default := by
    have member : xs.getD k default ∈ unique xs := by
      rw [mem_unique, List.getD_eq_getElem?_getD, List.getElem?_eq_getElem inside]
      exact List.getElem_mem inside
    exact ⟨List.idxOf_lt_length_of_mem member, List.getElem_idxOf _⟩
  obtain ⟨roomI, valueI⟩ := numbered insideI
  obtain ⟨roomJ, valueJ⟩ := numbered insideJ
  rw [← valueI, ← valueJ]
  rcases Nat.lt_or_eq_of_le order with less | same
  · exact List.pairwise_iff_getElem.mp (unique_pairwise xs) _ _ roomI roomJ less
  · exact le_of_eq (by simp only [same])

/-- `inv.new_empty(uni.size(0)).scatter_(0, inv, torch.arange(inv.size(0)))`. Every entry
is written, whatever the new tensor holds. -/
def lastOccurrences (xs : List α) : List Nat :=
  indexAssign (List.replicate (unique xs).length 0) (inverse xs) (List.range xs.length)

@[simp] theorem lastOccurrences_length (xs : List α) :
    (lastOccurrences xs).length = (unique xs).length := by
  rw [lastOccurrences, indexAssign_length, List.length_replicate]

/-- The last position of a value is the last one of its number. -/
theorem lastAt_inverse {xs : List α} {x : α} {i : Nat} (last : LastAt xs x i) :
    LastAt (inverse xs) ((unique xs).idxOf x) i := by
  refine ⟨by rw [inverse, List.getElem?_map, last.1]; rfl, fun j found => ?_⟩
  rw [inverse, List.getElem?_map] at found
  obtain ⟨y, value, same⟩ := Option.map_eq_some_iff.mp found
  have inUnique : y ∈ unique xs := mem_unique.mpr (List.mem_of_getElem? value)
  rw [(List.idxOf_inj inUnique).mp same] at value
  exact last.2 j value

/-- The entry of a value is its last position. -/
theorem lastOccurrences_spec {xs : List α} {x : α} {i : Nat} (last : LastAt xs x i) :
    (lastOccurrences xs)[(unique xs).idxOf x]? = some i := by
  refine indexAssign_last (lastAt_inverse last) (List.getElem?_range last.lt) ?_
  rw [List.length_replicate]
  exact List.idxOf_lt_length_of_mem (mem_unique.mpr last.mem)

/-- The entries are positions. -/
theorem lastOccurrences_lt {xs : List α} {i : Nat} (member : i ∈ lastOccurrences xs) :
    i < xs.length := by
  obtain ⟨k, inside, rfl⟩ := List.mem_iff_getElem.mp member
  rw [lastOccurrences_length] at inside
  obtain ⟨j, last⟩ := LastAt.of_mem (mem_unique.mp (List.getElem_mem inside))
  have entry := lastOccurrences_spec last
  rw [(unique_nodup xs).idxOf_getElem k inside] at entry
  obtain ⟨_, same⟩ := List.getElem?_eq_some_iff.mp entry
  exact same ▸ last.lt

/-- What is gathered for a value is what stands at its last position. -/
theorem gather_lastOccurrences [Inhabited β] {xs : List α} {x : α} {i : Nat}
    (last : LastAt xs x i) {vals : List β} {v : β} (value : vals[i]? = some v) :
    (gather vals (lastOccurrences xs))[(unique xs).idxOf x]? = some v := by
  rw [gather, List.getElem?_map, lastOccurrences_spec last, Option.map_some,
    List.getD_eq_getElem?_getD, value, Option.getD_some]

/-- The last occurrences of the values are the distinct values. -/
theorem gather_lastOccurrences_self (xs : List α) :
    gather xs (lastOccurrences xs) = unique xs := by
  apply List.ext_getElem?
  intro k
  by_cases inside : k < (unique xs).length
  · have value : (unique xs)[k]? = some (unique xs)[k] := List.getElem?_eq_getElem inside
    obtain ⟨i, last⟩ := LastAt.of_mem (mem_unique.mp (List.getElem_mem inside))
    have entry := gather_lastOccurrences last last.1
    rw [(unique_nodup xs).idxOf_getElem k inside] at entry
    rw [entry, value]
  · have missing : (gather xs (lastOccurrences xs)).length ≤ k := by
      simpa [gather] using Nat.le_of_not_lt inside
    rw [List.getElem?_eq_none missing, List.getElem?_eq_none (Nat.le_of_not_lt inside)]

end Occurrences

end Dolphin.Tensor
