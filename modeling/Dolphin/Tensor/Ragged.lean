import Mathlib.Algebra.Order.Ring.Nat
import Mathlib.Data.List.Basic
import Mathlib.Algebra.BigOperators.Group.List.Lemmas

/-!
# Lists kept in one tensor

Lists of different lengths are kept as their concatenation with the cumulative
sums of their lengths: list `b` is the part between two neighbouring sums.
-/

namespace Dolphin.Tensor

variable {α : Type*}

/-- `torch.cumsum(xs)`, added to `start`. -/
def cumsum (start : Nat) : List Nat → List Nat
  | [] => []
  | x :: xs => (start + x) :: cumsum (start + x) xs

/-- `xs[ptr[b]: ptr[b + 1]]`. -/
def raggedRow (xs : List α) (ptr : List Nat) (b : Nat) : List α :=
  (xs.take (ptr.getD (b + 1) 0)).drop (ptr.getD b 0)

/-- `copy(xs, dest + offset)`. -/
def copyAt (dest : List α) (offset : Nat) (xs : List α) : List α :=
  dest.take offset ++ xs ++ dest.drop (offset + xs.length)

/-- Each list copied to its own offset behind `base`. -/
def copyAll (base : Nat) (dest : List α) (xss : List (List α)) (offsets : List Nat) : List α :=
  (xss.zip offsets).foldl (fun dest part => copyAt dest (base + part.2) part.1) dest

@[simp] theorem cumsum_length (start : Nat) (xs : List Nat) :
    (cumsum start xs).length = xs.length := by
  induction xs generalizing start with
  | nil => rfl
  | cons x xs ih => simp [cumsum, ih]

/-- An entry of a cumulative sum. -/
theorem cumsum_getD {start b : Nat} {xs : List Nat} (bound : b < xs.length) :
    (cumsum start xs).getD b 0 = start + (xs.take (b + 1)).sum := by
  induction xs generalizing start b with
  | nil => simp at bound
  | cons x xs ih =>
      cases b with
      | zero => simp [cumsum]
      | succ b =>
          have rest : b < xs.length := by simpa using bound
          rw [cumsum, List.getD_cons_succ, ih rest, List.take_succ_cons, List.sum_cons]
          omega

/-- The last cumulative sum is the sum. -/
theorem cumsum_getLastD (start : Nat) (xs : List Nat) :
    (cumsum start (0 :: xs)).getLastD 0 = start + xs.sum := by
  induction xs generalizing start with
  | nil => rfl
  | cons x xs ih =>
      have rest := ih (start + x)
      simp only [cumsum, Nat.add_zero, List.getLastD_cons] at rest ⊢
      rw [rest, List.sum_cons, Nat.add_assoc]

/-- Copied to the cumulative sums of their lengths, lists lie one behind the other. -/
theorem copyAll_cumsum {base start : Nat} {dest : List α} {xss : List (List α)}
    {lengths : List Nat} (sized : xss.map List.length = lengths)
    (room : dest.length = base + start + lengths.sum) :
    copyAll base dest xss (cumsum start (0 :: lengths)) =
      dest.take (base + start) ++ xss.flatten := by
  induction xss generalizing start dest lengths with
  | nil =>
      subst sized
      have all : dest.length ≤ base + start := by simpa using room.le
      rw [List.take_of_length_le all]
      exact (List.append_nil dest).symm
  | cons xs xss ih =>
      subst sized
      have total : dest.length = base + start + (xs.length + (xss.map List.length).sum) := room
      have prefix_ : (dest.take (base + start)).length = base + start := by
        rw [List.length_take]
        omega
      have step := @ih (start + xs.length) (copyAt dest (base + start) xs) _ rfl (by
        simp only [copyAt, List.length_append, prefix_, List.length_drop]
        omega)
      have kept : (copyAt dest (base + start) xs).take (base + (start + xs.length)) =
          dest.take (base + start) ++ xs := by
        rw [copyAt, List.take_append_of_le_length, List.take_of_length_le]
        all_goals
          rw [List.length_append, prefix_]
          omega
      rw [kept, List.append_assoc] at step
      exact step

/-- Between its bounds lies the list itself. -/
theorem raggedRow_flatten {xss : List (List α)} {b : Nat} (bound : b < xss.length) :
    raggedRow xss.flatten (cumsum 0 (0 :: xss.map List.length)) b = xss[b] := by
  rw [raggedRow, cumsum_getD (by simp; omega), cumsum_getD (by simp; omega)]
  simp only [List.take_succ_cons, List.sum_cons, Nat.zero_add]
  exact List.drop_take_succ_flatten_eq_getElem xss b bound

/-- A position in lists of one width laid out one behind the other. -/
theorem getElem?_flatMap_width {ι β : Type*} {xs : List ι} {f : ι → List β} {width : Nat}
    (sized : ∀ x ∈ xs, (f x).length = width) {i j : Nat} (bound : j < width) :
    (xs.flatMap f)[i * width + j]? = xs[i]?.bind fun x => (f x)[j]? := by
  induction xs generalizing i with
  | nil => simp
  | cons x xs ih =>
      obtain ⟨first, rest⟩ := List.forall_mem_cons.mp sized
      rw [List.flatMap_cons]
      cases i with
      | zero =>
          rw [Nat.zero_mul, Nat.zero_add, List.getElem?_append_left (by omega)]
          rfl
      | succ i =>
          have shift : (i + 1) * width + j - (f x).length = i * width + j := by
            rw [first, Nat.succ_mul]
            omega
          rw [List.getElem?_append_right (by rw [first, Nat.succ_mul]; omega), shift, ih rest,
            List.getElem?_cons_succ]

theorem length_flatMap_width {ι β : Type*} {xs : List ι} {f : ι → List β} {width : Nat}
    (sized : ∀ x ∈ xs, (f x).length = width) : (xs.flatMap f).length = xs.length * width := by
  induction xs with
  | nil => simp
  | cons x xs ih =>
      obtain ⟨first, rest⟩ := List.forall_mem_cons.mp sized
      rw [List.flatMap_cons, List.length_append, first, ih rest, List.length_cons, Nat.succ_mul,
        Nat.add_comm]

/-! ## Interleaved rows -/

/-- `torch.cat([xs, ys], dim=1).reshape(-1, width)` for two matrices with rows of one width,
and `torch.cat([xs.unsqueeze(1), ys.unsqueeze(1)], dim=1).reshape(-1)` for two vectors. -/
def interleave (xs ys : List α) : List α := (xs.zip ys).flatMap fun pair => [pair.1, pair.2]

theorem interleave_cons (x y : α) (xs ys : List α) :
    interleave (x :: xs) (y :: ys) = x :: y :: interleave xs ys := rfl

/-- The even entries are those of the first list. -/
theorem interleave_even {xs ys : List α} (aligned : ys.length = xs.length) (i : Nat) :
    (interleave xs ys)[2 * i]? = xs[i]? := by
  induction xs generalizing ys i with
  | nil => simp [interleave]
  | cons x xs ih =>
      cases ys with
      | nil => simp at aligned
      | cons y ys =>
          rw [interleave_cons]
          cases i with
          | zero => rfl
          | succ i => exact ih (by simpa using aligned) i

/-- The odd entries are those of the second list. -/
theorem interleave_odd {xs ys : List α} (aligned : ys.length = xs.length) (i : Nat) :
    (interleave xs ys)[2 * i + 1]? = ys[i]? := by
  induction xs generalizing ys i with
  | nil =>
      obtain rfl : ys = [] := List.eq_nil_of_length_eq_zero aligned
      simp [interleave]
  | cons x xs ih =>
      cases ys with
      | nil => simp at aligned
      | cons y ys =>
          rw [interleave_cons]
          cases i with
          | zero => rfl
          | succ i => exact ih (by simpa using aligned) i

/-- The entries of interleaved lists. -/
theorem interleave_eq_some {xs ys : List α} (aligned : ys.length = xs.length) {j : Nat} {x : α} :
    (interleave xs ys)[j]? = some x ↔
      ∃ i, xs[i]? = some x ∧ j = 2 * i ∨ ys[i]? = some x ∧ j = 2 * i + 1 := by
  constructor
  · intro found
    obtain ⟨i, rfl | rfl⟩ : ∃ i, j = 2 * i ∨ j = 2 * i + 1 := ⟨j / 2, by omega⟩
    · rw [interleave_even aligned] at found
      exact ⟨i, .inl ⟨found, rfl⟩⟩
    · rw [interleave_odd aligned] at found
      exact ⟨i, .inr ⟨found, rfl⟩⟩
  · rintro ⟨i, ⟨found, rfl⟩ | ⟨found, rfl⟩⟩
    · rwa [interleave_even aligned]
    · rwa [interleave_odd aligned]

theorem interleave_length {xs ys : List α} (aligned : ys.length = xs.length) :
    (interleave xs ys).length = 2 * xs.length := by
  simp [interleave, aligned, Nat.mul_comm]

theorem mem_interleave {xs ys : List α} {x : α} (member : x ∈ interleave xs ys) :
    x ∈ xs ∨ x ∈ ys := by
  obtain ⟨⟨first, second⟩, pair, own⟩ := List.mem_flatMap.mp member
  obtain ⟨inFirst, inSecond⟩ := List.of_mem_zip pair
  rcases List.mem_pair.mp own with rfl | rfl
  · exact Or.inl inFirst
  · exact Or.inr inSecond

/-! ## Numbered lists -/

/-- The elements of lists with the numbers of their lists. -/
def numbered (first : Nat) (xss : List (List α)) : List (Nat × α) :=
  (xss.zipIdx first).flatMap fun xs => xs.1.map (Prod.mk xs.2)

theorem numbered_cons (first : Nat) (xs : List α) (xss : List (List α)) :
    numbered first (xs :: xss) = xs.map (Prod.mk first) ++ numbered (first + 1) xss := by
  rw [numbered, List.zipIdx_cons, List.flatMap_cons]
  rfl

theorem le_of_mem_numbered {first : Nat} {xss : List (List α)} {x : Nat × α}
    (member : x ∈ numbered first xss) : first ≤ x.1 := by
  obtain ⟨xs, source, inside⟩ := List.mem_flatMap.mp member
  obtain ⟨y, -, rfl⟩ := List.mem_map.mp inside
  exact List.le_snd_of_mem_zipIdx source

/-- The first list is what has the first number. -/
theorem filter_numbered_cons (first : Nat) (xs : List α) (xss : List (List α)) :
    (numbered first (xs :: xss)).filter (fun x => x.1 = first) = xs.map (Prod.mk first) := by
  have own : (xs.map (Prod.mk first)).filter (fun x => decide (x.1 = first)) =
      xs.map (Prod.mk first) := by
    rw [List.filter_eq_self]
    intro x member
    obtain ⟨y, -, rfl⟩ := List.mem_map.mp member
    exact decide_eq_true rfl
  have others : (numbered (first + 1) xss).filter (fun x => decide (x.1 = first)) = [] := by
    rw [List.filter_eq_nil_iff]
    intro x member
    have bound := le_of_mem_numbered member
    simp only [decide_eq_true_eq]
    omega
  rw [numbered_cons, List.filter_append, own, others, List.append_nil]

/-- The numbers tell the lists apart. -/
theorem numbered_injective {first : Nat} {xss yss : List (List α)}
    (aligned : xss.length = yss.length) (same : numbered first xss = numbered first yss) :
    xss = yss := by
  induction xss generalizing yss first with
  | nil => exact (List.eq_nil_of_length_eq_zero aligned.symm).symm
  | cons xs xss ih =>
      cases yss with
      | nil => cases aligned
      | cons ys yss =>
          have heads := congrArg (List.filter fun x => decide (x.1 = first)) same
          rw [filter_numbered_cons, filter_numbered_cons] at heads
          have paired : Function.Injective (Prod.mk first : α → Nat × α) :=
            fun _ _ equal => congrArg Prod.snd equal
          obtain rfl := List.map_injective_iff.mpr paired heads
          rw [numbered_cons, numbered_cons] at same
          rw [ih (Nat.succ.inj aligned) (List.append_cancel_left same)]

end Dolphin.Tensor
