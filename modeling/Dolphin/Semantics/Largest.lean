import Mathlib.Algebra.Order.BigOperators.Group.List
import Mathlib.Algebra.Order.Ring.Nat
import Mathlib.Data.List.Perm.Subperm
import Mathlib.Order.Basic

/-!
# The largest elements of a list

The first `k` elements of a list by some key, largest first. Elements with equal keys may
be chosen either way. What is chosen has at least the total of every other choice of as
many elements.
-/

namespace Dolphin.Semantics

variable {α β κ : Type*}

/-- `picked` are `k` elements of `all` with the largest keys, or all there are, largest
first. -/
structure Largest [LE κ] (key : α → κ) (k : Nat) (all picked : List α) : Prop where
  length : picked.length = min k all.length
  descending : picked.Pairwise fun x y => key y ≤ key x
  others : ∃ rest, (picked ++ rest).Perm all ∧ ∀ x ∈ picked, ∀ y ∈ rest, key y ≤ key x

namespace Largest

section Order

variable [LE κ] {key : α → κ} {k : Nat} {all picked : List α}

/-- The front of a list in descending order. -/
theorem take {sorted : List α} (descending : sorted.Pairwise fun x y => key y ≤ key x) (k : Nat) :
    Largest key k sorted (sorted.take k) where
  length := List.length_take
  descending := descending.sublist (List.take_sublist k sorted)
  others := by
    refine ⟨sorted.drop k, by rw [List.take_append_drop], fun x front y back => ?_⟩
    rw [← List.take_append_drop k sorted] at descending
    exact (List.pairwise_append.mp descending).2.2 x front y back

/-- The order of the list does not matter. -/
theorem perm {other : List α} (largest : Largest key k all picked) (same : all.Perm other) :
    Largest key k other picked where
  length := by rw [largest.length, same.length_eq]
  descending := largest.descending
  others := by
    obtain ⟨rest, split, above⟩ := largest.others
    exact ⟨rest, split.trans same, above⟩

theorem mem (largest : Largest key k all picked) {x : α} (member : x ∈ picked) : x ∈ all := by
  obtain ⟨rest, split, -⟩ := largest.others
  exact split.mem_iff.mp (List.mem_append_left rest member)

theorem nodup (largest : Largest key k all picked) (distinct : all.Nodup) : picked.Nodup := by
  obtain ⟨rest, split, -⟩ := largest.others
  exact (List.nodup_append.mp (split.nodup_iff.mpr distinct)).1

/-- A property of large keys holds of as many chosen elements as possible. -/
theorem countP (largest : Largest key k all picked) {p : α → Bool}
    (upward : ∀ x y, key y ≤ key x → p y = true → p x = true) :
    picked.countP p = min k (all.countP p) := by
  obtain ⟨rest, split, above⟩ := largest.others
  have length := largest.length
  have total := split.length_eq
  rw [← split.countP_eq p, List.countP_append]
  rw [List.length_append] at total
  by_cases every : ∀ x ∈ picked, p x = true
  · rw [List.countP_eq_length.mpr every]
    have left := List.countP_le_length (p := p) (l := rest)
    omega
  · obtain ⟨x, chosen, small⟩ : ∃ x ∈ picked, p x = false := by
      simpa using every
    have none_ : rest.countP p = 0 := by
      refine List.countP_eq_zero.mpr fun y inRest large => ?_
      rw [upward x y (above x chosen y inRest) large] at small
      cases small
    have few := List.countP_le_length (p := p) (l := picked)
    omega

end Order

/-! ## The total of the keys -/

variable {key : α → Nat} {k : Nat} {all picked : List α}

/-- A bound between what is chosen and what is left out. -/
theorem exists_bound (descending : picked.Pairwise fun x y => key y ≤ key x) {rest : List α}
    (above : ∀ x ∈ picked, ∀ y ∈ rest, key y ≤ key x) (nonempty : picked ≠ []) :
    ∃ bound, (∀ x ∈ picked, bound ≤ key x) ∧ ∀ y ∈ rest, key y ≤ bound := by
  obtain rfl | ⟨front, last, rfl⟩ := picked.eq_nil_or_concat'
  · exact absurd rfl nonempty
  · have inPicked : last ∈ front ++ [last] := List.mem_append_right _ List.mem_cons_self
    refine ⟨key last, fun x member => ?_, fun y left => above last inPicked y left⟩
    rcases List.mem_append.mp member with inFront | same
    · exact (List.pairwise_append.mp descending).2.2 x inFront last List.mem_cons_self
    · rw [List.mem_singleton.mp same]

/-- The keys as a bound and what they have above it. -/
theorem sum_eq_bound {xs : List α} {bound : Nat} (above : ∀ x ∈ xs, bound ≤ key x) :
    (xs.map key).sum = xs.length * bound + (xs.map fun x => key x - bound).sum := by
  induction xs with
  | nil => simp
  | cons x xs ih =>
      obtain ⟨own, others⟩ := List.forall_mem_cons.mp above
      rw [List.map_cons, List.sum_cons, ih others, List.map_cons, List.sum_cons, List.length_cons,
        Nat.succ_mul]
      omega

theorem sum_le_bound (xs : List α) (bound : Nat) :
    (xs.map key).sum ≤ xs.length * bound + (xs.map fun x => key x - bound).sum := by
  induction xs with
  | nil => simp
  | cons x xs ih =>
      rw [List.map_cons, List.sum_cons, List.map_cons, List.sum_cons, List.length_cons,
        Nat.succ_mul]
      omega

/-- No other choice of as many elements has a larger total. -/
theorem sum_le (largest : Largest key k all picked) {other : List α} (within : other.Subperm all)
    (few : other.length ≤ k) : (other.map key).sum ≤ (picked.map key).sum := by
  obtain ⟨rest, split, above⟩ := largest.others
  have count : other.length ≤ picked.length := by
    rw [largest.length]
    exact le_min few within.length_le
  rcases eq_or_ne picked [] with rfl | nonempty
  · obtain rfl : other = [] := List.eq_nil_of_length_eq_zero (Nat.le_zero.mp count)
    exact Nat.le_refl _
  · obtain ⟨bound, low, high⟩ := exists_bound largest.descending above nonempty
    let excess : α → Nat := fun x => key x - bound
    have inAll : (other.map excess).sum ≤ (all.map excess).sum := by
      obtain ⟨sub, same, sublist⟩ := within
      rw [← (same.map excess).sum_eq]
      exact (sublist.map excess).sum_le_sum fun _ _ => Nat.zero_le _
    have behind : (rest.map excess).sum = 0 := by
      refine List.sum_eq_zero fun n member => ?_
      obtain ⟨y, left, rfl⟩ := List.mem_map.mp member
      exact Nat.sub_eq_zero_of_le (high y left)
    calc (other.map key).sum
        ≤ other.length * bound + (other.map excess).sum := sum_le_bound other bound
      _ ≤ picked.length * bound + (all.map excess).sum :=
          Nat.add_le_add (Nat.mul_le_mul_right bound count) inAll
      _ = picked.length * bound + (picked.map excess).sum := by
          rw [← (split.map excess).sum_eq, List.map_append, List.sum_append, behind, Nat.add_zero]
      _ = (picked.map key).sum := (sum_eq_bound low).symm

/-! ## Requests -/

/-- Pairs that are related, counted from either side. -/
theorem sum_countP_comm (related : α → β → Bool) (xs : List α) (ys : List β) :
    (xs.map fun x => ys.countP (related x)).sum =
      (ys.map fun y => xs.countP (related · y)).sum := by
  induction xs with
  | nil => simp
  | cons x xs ih =>
      have own : (ys.map fun y => if related x y then 1 else 0).sum = ys.countP (related x) := by
        rw [List.sum_map_ite, List.countP_eq_length_filter]
        simp
      simp only [List.map_cons, List.sum_cons, ih, List.countP_cons, List.sum_map_add, own,
        Nat.add_comm]

variable [DecidableEq α]

theorem countP_mem_comm {xs ys : List α} (xsDistinct : xs.Nodup) (ysDistinct : ys.Nodup) :
    xs.countP (· ∈ ys) = ys.countP (· ∈ xs) := by
  rw [List.countP_eq_length_filter, List.countP_eq_length_filter]
  refine List.Perm.length_eq ((List.perm_ext_iff_of_nodup (xsDistinct.filter _)
    (ysDistinct.filter _)).mpr fun x => ?_)
  simp [and_comm]

/-- The requests that find their element in a list, counted by the elements of the list. -/
theorem sum_hits {requests : List (List α)} (each : ∀ request ∈ requests, request.Nodup)
    {cached : List α} (distinct : cached.Nodup) :
    (requests.map fun request => request.countP (· ∈ cached)).sum =
      (cached.map fun x => requests.countP (x ∈ ·)).sum := by
  rw [← sum_countP_comm fun request x => decide (x ∈ request)]
  exact congrArg List.sum
    (List.map_congr_left fun request member => countP_mem_comm (each request member) distinct)

/-- The elements that most requests have are the best ones to keep. -/
theorem hits_le {requests : List (List α)} (each : ∀ request ∈ requests, request.Nodup)
    (known : ∀ request ∈ requests, request ⊆ all) (allDistinct : all.Nodup)
    (largest : Largest (fun x => requests.countP (x ∈ ·)) k all picked) {other : List α}
    (distinct : other.Nodup) (few : other.length ≤ k) :
    (requests.map fun request => request.countP (· ∈ other)).sum ≤
      (requests.map fun request => request.countP (· ∈ picked)).sum := by
  have within : (other.filter (· ∈ all)).Subperm all :=
    List.subperm_of_subset (distinct.filter _) fun x member => by
      simpa using (List.mem_filter.mp member).2
  have kept : (requests.map fun request => request.countP (· ∈ other)) =
      requests.map fun request => request.countP (· ∈ other.filter (· ∈ all)) := by
    refine List.map_congr_left fun request member => List.countP_congr fun x requested => ?_
    simp [known request member requested]
  rw [kept, sum_hits each (distinct.filter _), sum_hits each (largest.nodup allDistinct)]
  exact largest.sum_le within ((List.length_filter_le _ other).trans few)

end Largest

end Dolphin.Semantics
