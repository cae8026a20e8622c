import Mathlib.Algebra.Order.Ring.Nat
import Mathlib.Data.List.Basic
import Mathlib.Data.List.Perm.Subperm

/-!
# Masks, gathers and scatters on one-dimensional tensors

The rows of a tensor are a list. `maskSelect` is `xs[mask]`, `maskAssign` is
`xs[mask] = vals`, `gather` is `xs[idx]` and `indexAssign` is `xs[idx] = vals`.

Rows that belong to a list of ids are written `ids.map f`. The lemmas say that
every operation maps such columns to such columns, so that a chain of masks,
gathers and scatters is followed by rewriting the function `f` alone.
-/

namespace Dolphin.Tensor

variable {ι α β : Type*}

/-- `xs[mask]`: the rows at the true positions, in order. -/
def maskSelect : List Bool → List α → List α
  | true :: mask, x :: xs => x :: maskSelect mask xs
  | false :: mask, _ :: xs => maskSelect mask xs
  | _, _ => []

/-- `xs[mask] = vals`: the true positions receive `vals` in order. -/
def maskAssign : List α → List Bool → List α → List α
  | _ :: xs, true :: mask, v :: vals => v :: maskAssign xs mask vals
  | x :: xs, false :: mask, vals => x :: maskAssign xs mask vals
  | xs, _, _ => xs

/-- `torch.isin(elements, test)`, and its negation for `invert = true`. -/
def isin [DecidableEq ι] (elements test : List ι) (invert : Bool) : List Bool :=
  elements.map fun x => decide (x ∈ test) != invert

/-- `torch.nonzero(mask).reshape(-1)`: the true positions, in order. -/
def nonzero (mask : List Bool) : List Nat :=
  maskSelect mask (List.range mask.length)

/-- `xs[idx]` for a list of positions. -/
def gather [Inhabited α] (xs : List α) (idx : List Nat) : List α :=
  idx.map fun i => xs.getD i default

/-- `xs[idx] = vals` for a list of positions, written in order. -/
def indexAssign (xs : List α) (idx : List Nat) (vals : List α) : List α :=
  (idx.zip vals).foldl (fun rows p => rows.set p.1 p.2) xs

/-- `xs[idx] = value` for a list of positions. -/
def indexFill (xs : List α) (idx : List Nat) (value : α) : List α :=
  indexAssign xs idx (idx.map fun _ => value)

/-! ## Masks of a column -/

@[simp] theorem maskSelect_nil (mask : List Bool) : maskSelect mask ([] : List α) = [] := by
  cases mask with
  | nil => rfl
  | cons b mask => cases b <;> rfl

@[simp] theorem nil_maskSelect (xs : List α) : maskSelect [] xs = [] := rfl

@[simp] theorem maskSelect_cons (b : Bool) (mask : List Bool) (x : α) (xs : List α) :
    maskSelect (b :: mask) (x :: xs) =
      if b then x :: maskSelect mask xs else maskSelect mask xs := by
  cases b <;> rfl

/-- Selecting a column by a predicate on its ids filters the ids. -/
theorem maskSelect_map (p : ι → Bool) (f : ι → α) (ids : List ι) :
    maskSelect (ids.map p) (ids.map f) = (ids.filter p).map f := by
  induction ids with
  | nil => rfl
  | cons x ids ih =>
      cases h : p x <;> simp [h, ih]

/-- Selecting the ids themselves. -/
theorem maskSelect_map_self (p : ι → Bool) (ids : List ι) :
    maskSelect (ids.map p) ids = ids.filter p := by
  simpa using maskSelect_map p id ids

theorem map_maskSelect (f : α → β) (mask : List Bool) (xs : List α) :
    (maskSelect mask xs).map f = maskSelect mask (xs.map f) := by
  induction mask generalizing xs with
  | nil => rfl
  | cons b mask ih =>
      cases xs with
      | nil => simp
      | cons x xs => cases b <;> simp [ih]

theorem maskSelect_sublist (mask : List Bool) (xs : List α) :
    (maskSelect mask xs).Sublist xs := by
  induction mask generalizing xs with
  | nil => simp
  | cons b mask ih =>
      cases xs with
      | nil => simp
      | cons x xs =>
          cases b with
          | true => simpa using ih xs
          | false => simpa using (ih xs).cons x

theorem maskSelect_length_le (mask : List Bool) (xs : List α) :
    (maskSelect mask xs).length ≤ xs.length :=
  (maskSelect_sublist mask xs).length_le

@[simp] theorem maskAssign_length (xs : List α) (mask : List Bool) (vals : List α) :
    (maskAssign xs mask vals).length = xs.length := by
  induction xs generalizing mask vals with
  | nil => cases mask <;> simp [maskAssign]
  | cons x xs ih =>
      cases mask with
      | nil => simp [maskAssign]
      | cons b mask =>
          cases b with
          | false => simp [maskAssign, ih]
          | true =>
              cases vals with
              | nil => simp [maskAssign]
              | cons v vals => simp [maskAssign, ih]

/-- Assigning a column of values under a predicate changes exactly the rows
whose id satisfies it. -/
theorem maskAssign_map (p : ι → Bool) (f g : ι → α) (ids : List ι) :
    maskAssign (ids.map g) (ids.map p) ((ids.filter p).map f) =
      ids.map fun x => if p x then f x else g x := by
  induction ids with
  | nil => rfl
  | cons x ids ih =>
      cases h : p x <;> simp [h, maskAssign, ih]

/-- The rows that are not under the mask stay. -/
theorem maskAssign_other {mask : List Bool} {i : Nat} (unmasked : mask[i]? = some false)
    (xs vals : List α) : (maskAssign xs mask vals)[i]? = xs[i]? := by
  induction xs generalizing mask vals i with
  | nil => cases mask <;> simp [maskAssign]
  | cons x xs ih =>
      cases mask with
      | nil => simp at unmasked
      | cons b mask =>
          cases i with
          | zero =>
              obtain rfl : b = false := by simpa using unmasked
              rfl
          | succ i =>
              have rest : mask[i]? = some false := by simpa using unmasked
              cases b with
              | false => exact ih rest vals
              | true =>
                  cases vals with
                  | nil => rfl
                  | cons v vals => exact ih rest vals

/-- Selecting by membership filters. -/
theorem maskSelect_isin [DecidableEq ι] (xs ys : List ι) (invert : Bool) :
    maskSelect (isin xs ys invert) xs = xs.filter fun x => decide (x ∈ ys) != invert :=
  maskSelect_map_self _ xs

@[simp] theorem isin_length [DecidableEq ι] (xs ys : List ι) (invert : Bool) :
    (isin xs ys invert).length = xs.length :=
  List.length_map _

theorem isin_false [DecidableEq ι] (xs ys : List ι) :
    isin xs ys false = xs.map fun x => decide (x ∈ ys) := by
  simp [isin]

theorem isin_true [DecidableEq ι] (xs ys : List ι) :
    isin xs ys true = xs.map fun x => decide (x ∉ ys) := by
  simp [isin]

/-- Selecting what is not in nothing. -/
theorem maskSelect_isin_nil [DecidableEq ι] {xs : List ι} {ys : List α}
    (aligned : xs.length = ys.length) : maskSelect (isin xs [] true) ys = ys := by
  induction xs generalizing ys with
  | nil => exact (List.eq_nil_of_length_eq_zero aligned.symm).symm ▸ rfl
  | cons x xs ih =>
      cases ys with
      | nil => simp at aligned
      | cons y ys =>
          have rest : maskSelect (isin xs [] true) ys = ys := ih (by simpa using aligned)
          exact congrArg (y :: ·) rest

/-- Without values nothing is assigned. -/
@[simp] theorem maskAssign_nil (xs : List α) (mask : List Bool) : maskAssign xs mask [] = xs := by
  induction xs generalizing mask with
  | nil => cases mask <;> simp [maskAssign]
  | cons x xs ih =>
      cases mask with
      | nil => simp [maskAssign]
      | cons b mask => cases b <;> simp [maskAssign, ih]

theorem map_maskAssign (f : α → β) (xs : List α) (mask : List Bool) (vals : List α) :
    (maskAssign xs mask vals).map f = maskAssign (xs.map f) mask (vals.map f) := by
  induction xs generalizing mask vals with
  | nil => cases mask <;> simp [maskAssign]
  | cons x xs ih =>
      cases mask with
      | nil => simp [maskAssign]
      | cons b mask =>
          cases b with
          | false => simp [maskAssign, ih]
          | true =>
              cases vals with
              | nil => simp [maskAssign]
              | cons v vals => simp [maskAssign, ih]

/-- The rows a mask leaves alone, and the values it writes, make up the result. -/
theorem maskAssign_perm {mask : List Bool} {xs vals : List α} (aligned : mask.length = xs.length)
    (enough : vals.length = (maskSelect mask xs).length) :
    (maskAssign xs mask vals).Perm (maskSelect (mask.map (!·)) xs ++ vals) := by
  induction xs generalizing mask vals with
  | nil =>
      have empty : mask = [] := List.eq_nil_of_length_eq_zero aligned
      have none : vals = [] := List.eq_nil_of_length_eq_zero (by simpa [empty] using enough)
      simp [empty, none, maskAssign]
  | cons x xs ih =>
      cases mask with
      | nil => simp at aligned
      | cons b mask =>
          have short : mask.length = xs.length := by simpa using aligned
          cases b with
          | false => simpa [maskAssign] using (ih short (by simpa using enough)).cons x
          | true =>
              cases vals with
              | nil => simp at enough
              | cons v vals =>
                  have tail := (ih short (by simpa using enough)).cons v
                  simpa [maskAssign] using tail.trans List.perm_middle.symm

/-! ## Positions -/

theorem nonzero_cons (b : Bool) (mask : List Bool) :
    nonzero (b :: mask) =
      if b then 0 :: (nonzero mask).map (· + 1) else (nonzero mask).map (· + 1) := by
  have tail : maskSelect mask (List.map Nat.succ (List.range mask.length)) =
      (nonzero mask).map (· + 1) := by
    rw [nonzero, map_maskSelect]
  cases b <;> simp [nonzero, List.range_succ_eq_map, tail]

theorem mem_nonzero {mask : List Bool} {i : Nat} : i ∈ nonzero mask ↔ mask[i]? = some true := by
  induction mask generalizing i with
  | nil => simp [nonzero]
  | cons b mask ih =>
      rw [nonzero_cons]
      cases i with
      | zero => cases b <;> simp
      | succ i => cases b <;> simp [ih]

theorem nonzero_length_le (mask : List Bool) : (nonzero mask).length ≤ mask.length := by
  simpa [nonzero] using maskSelect_length_le mask (List.range mask.length)

theorem nonzero_lt {mask : List Bool} {i : Nat} (member : i ∈ nonzero mask) :
    i < mask.length := by
  rw [mem_nonzero] at member
  exact (List.getElem?_eq_some_iff.mp member).1

/-- The true positions are strictly increasing. -/
theorem nonzero_pairwise (mask : List Bool) : (nonzero mask).Pairwise (· < ·) := by
  induction mask with
  | nil => simp [nonzero]
  | cons b mask ih =>
      have shifted : ((nonzero mask).map (· + 1)).Pairwise (· < ·) := by
        rw [List.pairwise_map]
        exact ih.imp (by omega)
      rw [nonzero_cons]
      cases b with
      | false => simpa using shifted
      | true => simpa using shifted

/-- Gathering at the true positions is selecting by the mask. -/
theorem gather_nonzero [Inhabited α] {mask : List Bool} {xs : List α}
    (aligned : mask.length = xs.length) : gather xs (nonzero mask) = maskSelect mask xs := by
  induction mask generalizing xs with
  | nil => simp [nonzero, gather]
  | cons b mask ih =>
      cases xs with
      | nil => simp at aligned
      | cons x xs =>
          have tail : gather xs (nonzero mask) = maskSelect mask xs :=
            ih (by simpa using aligned)
          simp only [gather, List.getD_eq_getElem?_getD] at tail
          cases b <;> simp [gather, nonzero_cons, Function.comp_def, tail]

theorem indexAssign_succ (x : α) (xs : List α) (idx : List Nat) (vals : List α) :
    indexAssign (x :: xs) (idx.map (· + 1)) vals = x :: indexAssign xs idx vals := by
  unfold indexAssign
  induction idx generalizing xs vals with
  | nil => simp
  | cons i idx ih =>
      cases vals with
      | nil => simp
      | cons v vals => simpa using ih (xs.set i v) vals

/-- Assigning at the true positions is assigning under the mask. -/
theorem indexAssign_nonzero {mask : List Bool} {xs vals : List α}
    (aligned : mask.length = xs.length) (enough : vals.length = (nonzero mask).length) :
    indexAssign xs (nonzero mask) vals = maskAssign xs mask vals := by
  induction mask generalizing xs vals with
  | nil =>
      have empty : xs = [] := List.eq_nil_of_length_eq_zero aligned.symm
      simp [empty, nonzero, indexAssign, maskAssign]
  | cons b mask ih =>
      cases xs with
      | nil => simp at aligned
      | cons x xs =>
          have short : mask.length = xs.length := by simpa using aligned
          cases b with
          | false =>
              rw [nonzero_cons] at enough ⊢
              have tail : indexAssign xs (nonzero mask) vals = maskAssign xs mask vals :=
                ih short (by simpa using enough)
              simpa [maskAssign, tail] using indexAssign_succ x xs (nonzero mask) vals
          | true =>
              cases vals with
              | nil => simp [nonzero_cons] at enough
              | cons v vals =>
                  rw [nonzero_cons] at enough ⊢
                  have tail : indexAssign xs (nonzero mask) vals = maskAssign xs mask vals :=
                    ih short (by simpa using enough)
                  have step := indexAssign_succ v xs (nonzero mask) vals
                  simp only [maskAssign, ← tail, ← step]
                  simp [indexAssign]

/-- Overwriting the rows of the ids that satisfy `p` with their own values. -/
theorem indexAssign_map [Inhabited ι] (p : ι → Bool) (f g : ι → α) (ids : List ι) :
    indexAssign (ids.map g) (nonzero (ids.map p)) ((gather ids (nonzero (ids.map p))).map f) =
      ids.map fun x => if p x then f x else g x := by
  have selected : gather ids (nonzero (ids.map p)) = ids.filter p := by
    rw [gather_nonzero (by simp), maskSelect_map_self]
  have counted : ((ids.filter p).map f).length = (nonzero (ids.map p)).length := by
    have lengths := congrArg List.length selected
    simpa [gather] using lengths.symm
  rw [selected, indexAssign_nonzero (by simp) counted, maskAssign_map]

/-! ## Reads after a scatter -/

theorem indexAssign_cons (xs : List α) (i : Nat) (idx : List Nat) (v : α) (vals : List α) :
    indexAssign xs (i :: idx) (v :: vals) = indexAssign (xs.set i v) idx vals := rfl

/-- An entry was there or is one of the values. -/
theorem mem_indexAssign {xs vals : List α} {idx : List Nat} {x : α}
    (member : x ∈ indexAssign xs idx vals) : x ∈ xs ∨ x ∈ vals := by
  induction idx generalizing xs vals with
  | nil => exact Or.inl member
  | cons i idx ih =>
      cases vals with
      | nil => exact Or.inl member
      | cons v vals =>
          rw [indexAssign_cons] at member
          rcases ih member with kept | written
          · rcases List.mem_or_eq_of_mem_set kept with old | rfl
            · exact Or.inl old
            · exact Or.inr List.mem_cons_self
          · exact Or.inr (List.mem_cons_of_mem _ written)

@[simp] theorem indexAssign_length (xs : List α) (idx : List Nat) (vals : List α) :
    (indexAssign xs idx vals).length = xs.length := by
  induction idx generalizing xs vals with
  | nil => rfl
  | cons i idx ih =>
      cases vals with
      | nil => rfl
      | cons v vals => rw [indexAssign_cons, ih, List.length_set]

/-- A position that is not written keeps its row. -/
theorem indexAssign_other {idx : List Nat} {i : Nat} (untouched : i ∉ idx) (xs vals : List α) :
    (indexAssign xs idx vals)[i]? = xs[i]? := by
  induction idx generalizing xs vals with
  | nil => rfl
  | cons j idx ih =>
      obtain ⟨other, rest⟩ : i ≠ j ∧ i ∉ idx := by simpa using untouched
      cases vals with
      | nil => rfl
      | cons v vals => rw [indexAssign_cons, ih rest, List.getElem?_set_ne (Ne.symm other)]

/-- A position that is written once holds the value written there. -/
theorem indexAssign_own {idx : List Nat} (distinct : idx.Nodup) {xs vals : List α} {k i : Nat}
    {v : α} (index : idx[k]? = some i) (value : vals[k]? = some v) (bound : i < xs.length) :
    (indexAssign xs idx vals)[i]? = some v := by
  induction idx generalizing xs vals k with
  | nil => simp at index
  | cons j idx ih =>
      obtain ⟨fresh, distinct⟩ := List.nodup_cons.mp distinct
      cases vals with
      | nil => simp at value
      | cons w vals =>
          rw [indexAssign_cons]
          cases k with
          | zero =>
              obtain rfl : j = i := by simpa using index
              obtain rfl : w = v := by simpa using value
              rw [indexAssign_other fresh, List.getElem?_set_self bound]
          | succ k =>
              exact ih distinct (by simpa using index) (by simpa using value) (by simpa using bound)

/-- Writing a column at distinct positions: every id finds its own value. -/
theorem indexAssign_column {ids : List ι} {position : ι → Nat} (value : ι → α)
    (distinct : (ids.map position).Nodup) {xs : List α} {x : ι} (member : x ∈ ids)
    (bound : position x < xs.length) :
    (indexAssign xs (ids.map position) (ids.map value))[position x]? = some (value x) := by
  obtain ⟨k, index⟩ := List.getElem?_of_mem member
  have written : (ids.map position)[k]? = some (position x) := by simp [index]
  have stored : (ids.map value)[k]? = some (value x) := by simp [index]
  exact indexAssign_own distinct written stored bound

/-- Writing the first positions replaces a prefix. -/
theorem indexAssign_range {xs vals : List α} {count : Nat} (aligned : vals.length = count)
    (bound : count ≤ xs.length) :
    indexAssign xs (List.range count) vals = vals ++ xs.drop count := by
  apply List.ext_getElem?
  intro i
  by_cases written : i < count
  · have index : (List.range count)[i]? = some i := by simp [written]
    have stored : i < vals.length := by omega
    have value : vals[i]? = some vals[i] := List.getElem?_eq_getElem stored
    rw [indexAssign_own List.nodup_range index value (by omega),
      List.getElem?_append_left (by omega), value]
  · have untouched : i ∉ List.range count := by simpa using written
    rw [indexAssign_other untouched, List.getElem?_append_right (by omega), List.getElem?_drop]
    congr 1
    omega

/-- Writing a range behind some elements. -/
theorem indexAssign_behind (xs : List α) {ys vals : List α} {count : Nat}
    (aligned : vals.length = count) (bound : count ≤ ys.length) :
    indexAssign (xs ++ ys) (List.range' xs.length count) vals = xs ++ (vals ++ ys.drop count) := by
  induction xs with
  | nil =>
      rw [List.length_nil, ← List.range_eq_range', List.nil_append, List.nil_append,
        indexAssign_range aligned bound]
  | cons x xs ih =>
      have shifted : List.range' (xs.length + 1) count =
          (List.range' xs.length count).map (· + 1) := by
        rw [Nat.add_comm, ← List.map_add_range']
        exact List.map_congr_left fun i _ => Nat.add_comm 1 i
      rw [List.length_cons, shifted, List.cons_append, indexAssign_succ, ih, List.cons_append]

/-! ## Gathers -/

theorem gather_length [Inhabited α] (xs : List α) (idx : List Nat) :
    (gather xs idx).length = idx.length := by
  simp [gather]

theorem gather_subset [Inhabited α] {xs : List α} {idx : List Nat}
    (bound : ∀ i ∈ idx, i < xs.length) {x : α} (member : x ∈ gather xs idx) : x ∈ xs := by
  obtain ⟨i, place, rfl⟩ := List.mem_map.mp member
  rw [List.getD_eq_getElem?_getD, List.getElem?_eq_getElem (bound i place), Option.getD_some]
  exact List.getElem_mem _

/-- A gather inside the range of a column gathers the ids. -/
theorem gather_map [Inhabited α] [Inhabited β] (f : α → β) {xs : List α} {idx : List Nat}
    (inRange : ∀ i ∈ idx, i < xs.length) : gather (xs.map f) idx = (gather xs idx).map f := by
  unfold gather
  rw [List.map_map]
  apply List.map_congr_left
  intro i member
  have bound := inRange i member
  simp [List.getD_eq_getElem?_getD, bound]

theorem gather_range [Inhabited α] (xs : List α) : gather xs (List.range xs.length) = xs := by
  apply List.ext_getElem
  · simp [gather]
  · intro i _ bound
    simp [gather, bound]

/-- Rows that are mapped together with the missing row. -/
theorem gather_map_default [Inhabited α] [Inhabited β] {f : α → β} (same : f default = default)
    (xs : List α) (idx : List Nat) : gather (xs.map f) idx = (gather xs idx).map f := by
  rw [gather, gather, List.map_map]
  refine List.map_congr_left fun i _ => ?_
  rw [List.getD_eq_getElem?_getD, List.getElem?_map, Function.comp_apply,
    List.getD_eq_getElem?_getD]
  cases xs[i]? with
  | none => exact same.symm
  | some x => rfl

/-- The rows in another order. -/
theorem gather_perm [Inhabited α] {xs : List α} {order : List Nat}
    (perm : order.Perm (List.range xs.length)) : (gather xs order).Perm xs := by
  have permuted : (gather xs order).Perm (gather xs (List.range xs.length)) := perm.map _
  rwa [gather_range] at permuted

@[simp] theorem indexFill_length (xs : List α) (idx : List Nat) (value : α) :
    (indexFill xs idx value).length = xs.length :=
  indexAssign_length _ _ _

/-- What a tensor has after a function of the positions was written to some of them. -/
theorem getElem?_indexAssign_map {xs : List α} {idx : List Nat} (bound : ∀ i ∈ idx, i < xs.length)
    (value : Nat → α) (i : Nat) :
    (indexAssign xs idx (idx.map value))[i]? = if i ∈ idx then some (value i) else xs[i]? := by
  induction idx generalizing xs with
  | nil => rfl
  | cons j idx ih =>
      obtain ⟨first, rest⟩ := List.forall_mem_cons.mp bound
      rw [List.map_cons, indexAssign_cons, ih (by simpa using rest)]
      simp only [List.getElem?_set, List.mem_cons]
      by_cases later : i ∈ idx
      · simp [later]
      · by_cases own : j = i
        · subst own
          simp [first]
        · simp [later, own, Ne.symm own]

/-- What a tensor has after one value was written to some of its positions. -/
theorem getD_indexFill {xs : List α} {idx : List Nat} (bound : ∀ i ∈ idx, i < xs.length)
    (value fallback : α) (i : Nat) :
    (indexFill xs idx value).getD i fallback = if i ∈ idx then value else xs.getD i fallback := by
  rw [indexFill, List.getD_eq_getElem?_getD, getElem?_indexAssign_map bound]
  split <;> rfl

/-- Values written to distinct positions are read back in order. -/
theorem gather_indexAssign [Inhabited α] {xs vals : List α} {idx : List Nat}
    (distinct : idx.Nodup) (aligned : vals.length = idx.length)
    (bound : ∀ i ∈ idx, i < xs.length) : gather (indexAssign xs idx vals) idx = vals := by
  apply List.ext_getElem
  · rw [gather, List.length_map, aligned]
  · intro k inGather inVals
    have position : k < idx.length := by simpa [gather] using inGather
    have index : idx[k]? = some idx[k] := List.getElem?_eq_getElem position
    have written := indexAssign_own distinct index (List.getElem?_eq_getElem inVals)
      (bound _ (List.getElem_mem position))
    simp [gather, List.getD_eq_getElem?_getD, written]

/-- The true positions, as a filter. -/
theorem nonzero_eq_filter (mask : List Bool) :
    nonzero mask = (List.range mask.length).filter fun i => mask.getD i false := by
  have column : mask = (List.range mask.length).map fun i => mask.getD i false :=
    (gather_range mask).symm
  have selected := maskSelect_map_self (fun i => mask.getD i false) (List.range mask.length)
  rwa [← column] at selected

/-- Rows at distinct positions are rows of the column, none taken twice. -/
theorem gather_subperm [Inhabited α] {xs : List α} {idx : List Nat} (distinct : idx.Nodup)
    (bound : ∀ i ∈ idx, i < xs.length) : (gather xs idx).Subperm xs := by
  obtain ⟨positions, perm, sublist⟩ : idx.Subperm (List.range xs.length) :=
    List.subperm_of_subset distinct fun i member => List.mem_range.mpr (bound i member)
  have rows := sublist.map fun i => xs.getD i default
  have whole : gather xs (List.range xs.length) = xs := gather_range xs
  rw [gather] at whole
  rw [whole] at rows
  exact ⟨_, perm.map _, rows⟩

/-- How often a value occurs among the rows a mask selects. -/
theorem count_gather_nonzero [Inhabited α] [DecidableEq α] (xs : List α) (mask : List Bool)
    (x : α) :
    (gather xs (nonzero mask)).count x =
      (List.range mask.length).countP fun i => xs.getD i default == x && mask.getD i false := by
  rw [gather, nonzero_eq_filter, List.count, List.countP_map, List.countP_filter]
  rfl

/-- A mask selects as many rows as it has true entries. -/
theorem length_maskSelect {mask : List Bool} {xs : List α} (aligned : mask.length = xs.length) :
    (maskSelect mask xs).length = mask.count true := by
  induction mask generalizing xs with
  | nil => rfl
  | cons b mask ih =>
      cases xs with
      | nil => cases aligned
      | cons x xs =>
          have rest := ih (Nat.succ.inj aligned)
          cases b with
          | false => simpa using rest
          | true => simpa using rest

/-- There are as many positions as ids that satisfy the predicate. -/
theorem nonzero_map_length (p : ι → Bool) (ids : List ι) :
    (nonzero (ids.map p)).length = (ids.filter p).length := by
  rw [nonzero, length_maskSelect (by rw [List.length_range]), ← maskSelect_map_self,
    length_maskSelect (List.length_map p)]

/-! ## Filling rows -/

/-- A row that a predicate leaves out is replaced by one that it keeps. -/
theorem set_filter_perm {p : α → Bool} {xs : List α} {i : Nat} {x v : α} (row : xs[i]? = some x)
    (out : p x = false) (into : p v = true) : ((xs.set i v).filter p).Perm (v :: xs.filter p) := by
  induction xs generalizing i with
  | nil => simp at row
  | cons y ys ih =>
      cases i with
      | zero =>
          obtain rfl : y = x := by simpa using row
          rw [List.set_cons_zero, List.filter_cons_of_pos into,
            List.filter_cons_of_neg (by simp [out])]
      | succ i =>
          have rest := ih (by simpa using row)
          rw [List.set_cons_succ]
          by_cases kept : p y = true
          · rw [List.filter_cons_of_pos kept, List.filter_cons_of_pos kept]
            exact (rest.cons y).trans (.swap v y _)
          · rw [List.filter_cons_of_neg kept, List.filter_cons_of_neg kept]
            exact rest

/-- Rows that a predicate leaves out are filled with values that it keeps. -/
theorem indexAssign_filter_perm {p : α → Bool} {xs vals : List α} {idx : List Nat}
    (distinct : idx.Nodup) (aligned : vals.length = idx.length)
    (out : ∀ i ∈ idx, ∃ x, xs[i]? = some x ∧ p x = false) (into : ∀ v ∈ vals, p v = true) :
    ((indexAssign xs idx vals).filter p).Perm (xs.filter p ++ vals) := by
  induction idx generalizing xs vals with
  | nil =>
      obtain rfl : vals = [] := List.eq_nil_of_length_eq_zero aligned
      rw [List.append_nil]
      exact .refl _
  | cons i idx ih =>
      obtain ⟨fresh, distinct⟩ := List.nodup_cons.mp distinct
      obtain ⟨⟨x, row, left⟩, rest⟩ := List.forall_mem_cons.mp out
      cases vals with
      | nil => cases aligned
      | cons v vals =>
          obtain ⟨own, later⟩ := List.forall_mem_cons.mp into
          have others : ∀ j ∈ idx, ∃ x, (xs.set i v)[j]? = some x ∧ p x = false := by
            intro j member
            have apart : i ≠ j := fun same => fresh (same.symm ▸ member)
            rw [List.getElem?_set_ne apart]
            exact rest j member
          rw [indexAssign_cons]
          refine (ih distinct (Nat.succ.inj aligned) others later).trans ?_
          exact ((set_filter_perm row left own).append_right vals).trans List.perm_middle.symm

end Dolphin.Tensor
