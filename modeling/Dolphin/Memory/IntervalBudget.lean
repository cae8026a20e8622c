import Mathlib.Order.CompletePartialOrder
import Mathlib.Data.Set.Lattice
import Dolphin.Memory.Intervals
import Dolphin.Semantics.Packing

/-!
# The budget of the plan

An interval takes one place in the cache of every block from its start up to its end.
`select_interval_ID` packs the intervals in the order of their weights: no block has more
of the kept ones than the limit, and an interval that is not kept covers a block that is
full.
-/

namespace Dolphin.Memory

open Dolphin.Tensor Dolphin.Semantics

/-- `budget[start:end]`. -/
def Interval.covers (interval : Interval) : Set Nat :=
  {k | interval.start ≤ k ∧ k < interval.stop}

/-- How many intervals cover a block. -/
def coverCount (intervals : List Interval) (k : Nat) : Nat :=
  intervals.countP fun interval => interval.start ≤ k ∧ k < interval.stop

theorem load_covers (intervals : List Interval) (k : Nat) :
    load Interval.covers intervals k = coverCount intervals k := by
  unfold load coverCount
  congr 1
  funext interval
  exact decide_eq_decide.mpr Iff.rfl

/-- `data_placement_single(uni_list, num_data, len(uni_list), limit)`. Without blocks the
budget has the length −1, which raises. -/
def dataPlacementSingleCall (blocks : List (List Nat)) (numData limit : Nat)
    (weightOrder : List Nat) : Option (List Interval) :=
  if blocks.length = 0 then none
  else some (dataPlacementSingle blocks numData limit weightOrder)

/-! ## The selection as a packing -/

theorem covered_getElem? (interval : Interval) (budget : List Nat) (k : Nat) :
    ((budget.take interval.stop).drop interval.start)[k]? =
      if interval.start + k < interval.stop then budget[interval.start + k]? else none := by
  rw [List.getElem?_drop, List.getElem?_take]

/-- A block without budget. -/
theorem covered_any {interval : Interval} {budget : List Nat}
    (inside : interval.stop ≤ budget.length) (other : Nat) :
    ((budget.take interval.stop).drop interval.start).any (· < 1) ↔
      ∃ k ∈ interval.covers, budget.getD k other < 1 := by
  rw [List.any_eq_true]
  constructor
  · rintro ⟨left, member, empty⟩
    obtain ⟨k, place⟩ := List.getElem?_of_mem member
    rw [covered_getElem?] at place
    split at place
    · rename_i before
      refine ⟨interval.start + k, ⟨Nat.le_add_right _ _, before⟩, ?_⟩
      rw [List.getD_eq_getElem?_getD, place]
      simpa using empty
    · exact absurd place (by simp)
  · rintro ⟨k, ⟨after, before⟩, empty⟩
    have room : k < budget.length := by omega
    refine ⟨budget[k], List.mem_of_getElem? (i := k - interval.start) ?_, ?_⟩
    · rw [covered_getElem?, Nat.add_sub_cancel' after, if_pos before,
        List.getElem?_eq_getElem room]
    · rw [List.getD_eq_getElem?_getD, List.getElem?_eq_getElem room] at empty
      simpa using empty

/-- `budget[start:end] -= 1`. -/
theorem spend_getD {interval : Interval} {budget : List Nat}
    (ordered : interval.start ≤ interval.stop) (inside : interval.stop ≤ budget.length)
    (other k : Nat) :
    (budget.take interval.start ++
        ((budget.take interval.stop).drop interval.start).map (· - 1) ++
        budget.drop interval.stop).getD k other =
      if interval.start ≤ k ∧ k < interval.stop then budget.getD k other - 1
      else budget.getD k other := by
  have front : (budget.take interval.start).length = interval.start := by
    rw [List.length_take]
    omega
  have middle : (((budget.take interval.stop).drop interval.start).map (· - 1)).length =
      interval.stop - interval.start := by
    rw [List.length_map, List.length_drop, List.length_take]
    omega
  simp only [List.getD_eq_getElem?_getD]
  by_cases before : k < interval.start
  · rw [if_neg (by omega), List.append_assoc, List.getElem?_append_left (by omega),
      List.getElem?_take, if_pos before]
  · by_cases covered : k < interval.stop
    · have room : k < budget.length := by omega
      rw [if_pos ⟨by omega, covered⟩, List.append_assoc, List.getElem?_append_right (by omega),
        front, List.getElem?_append_left (by omega), List.getElem?_map,
        covered_getElem?, Nat.add_sub_cancel' (by omega), if_pos covered,
        List.getElem?_eq_getElem room]
      rfl
    · have both : (budget.take interval.start ++
          ((budget.take interval.stop).drop interval.start).map (· - 1)).length =
            interval.stop := by
        rw [List.length_append, front, middle]
        omega
      rw [if_neg (by omega), List.getElem?_append_right (by omega), both, List.getElem?_drop,
        Nat.add_sub_cancel' (by omega)]

/-- The selected intervals are those that a packing keeps. -/
theorem gather_selectIntervalId {intervals done : List Interval} {budget : List Nat} (other : Nat)
    (inside : ∀ interval ∈ intervals,
      interval.start ≤ interval.stop ∧ interval.stop ≤ budget.length) :
    gather (done ++ intervals) (selectIntervalId intervals done.length budget) =
      pack Interval.covers intervals fun k => budget.getD k other := by
  induction intervals generalizing done budget with
  | nil => rfl
  | cons interval rest ih =>
      obtain ⟨⟨ordered, room⟩, others⟩ := List.forall_mem_cons.mp inside
      have position : done ++ interval :: rest = (done ++ [interval]) ++ rest := by simp
      have next : done.length + 1 = (done ++ [interval]).length := by simp
      rw [selectIntervalId, pack, next]
      by_cases blocked : ((budget.take interval.stop).drop interval.start).any (· < 1)
      · rw [if_pos blocked, if_pos ((covered_any room other).mp blocked), position,
          ih others]
      · rw [if_neg blocked, if_neg (fun empty => blocked ((covered_any room other).mpr empty))]
        have length : (budget.take interval.start ++
            ((budget.take interval.stop).drop interval.start).map (· - 1) ++
            budget.drop interval.stop).length = budget.length := by
          simp only [List.length_append, List.length_take, List.length_map, List.length_drop]
          omega
        have own : (done ++ interval :: rest).getD done.length default = interval := by
          rw [List.getD_eq_getElem?_getD, List.getElem?_append_right (Nat.le_refl _), Nat.sub_self]
          rfl
        have later := @ih (done ++ [interval]) _ fun x member => by
          rw [length]
          exact others x member
        rw [← position] at later
        rw [gather, List.map_cons, own]
        refine congrArg (interval :: ·) (later.trans ?_)
        congr 1
        funext k
        rw [spend_getD ordered room]
        by_cases covered : interval.start ≤ k ∧ k < interval.stop
        · rw [if_pos covered]
          exact (if_pos covered).symm
        · rw [if_neg covered]
          exact (if_neg covered).symm

/-! ## The intervals of the blocks -/

section Plan

variable {blocks : List (List Nat)} {numData : Nat} (distinct : ∀ uni ∈ blocks, uni.Nodup)
  (known : ∀ uni ∈ blocks, ∀ v ∈ uni, v < numData)

include distinct known

theorem genIntervals_inside {interval : Interval} (member : interval ∈ genIntervals blocks numData) :
    interval.start ≤ interval.stop ∧ interval.stop ≤ blocks.length - 1 := by
  have gap := (genIntervals_gaps distinct known).1 interval member
  obtain ⟨uni, own, -⟩ := gap.closes
  have bound := (List.getElem?_eq_some_iff.mp own).1
  exact ⟨Nat.le_of_lt gap.order, by omega⟩

/-- The intervals of one node are disjoint. -/
theorem genIntervals_disjoint : (genIntervals blocks numData).Pairwise fun x y =>
    x.id = y.id → Disjoint x.covers y.covers := by
  obtain ⟨gaps, nodup⟩ := genIntervals_gaps distinct known
  refine List.Pairwise.imp_of_mem (fun {x y} memberX memberY different same => ?_) nodup
  rw [Set.disjoint_left]
  rintro k ⟨afterX, beforeX⟩ ⟨afterY, beforeY⟩
  exact different ((gaps x memberX).unique (gaps y memberY) same (k := k + 1)
    ⟨by omega, by omega⟩ ⟨by omega, by omega⟩)

/-- With a positive limit the plan is a packing of the intervals. -/
theorem dataPlacementSingle_perm_pack {limit : Nat} (positive : 1 ≤ limit)
    {weightOrder : List Nat}
    (order : weightOrder.Perm (List.range (genIntervals blocks numData).length)) :
    (dataPlacementSingle blocks numData limit weightOrder).Perm
      (pack Interval.covers (gather (genIntervals blocks numData) weightOrder) fun _ => limit) := by
  have sorted := gather_perm order
  have inside : ∀ interval ∈ gather (genIntervals blocks numData) weightOrder,
      interval.start ≤ interval.stop ∧
        interval.stop ≤ (List.replicate (blocks.length - 1) limit).length := by
    intro interval member
    rw [List.length_replicate]
    exact genIntervals_inside distinct known (sorted.mem_iff.mp member)
  have chosen := @gather_selectIntervalId _ [] _ limit inside
  have budget : (fun k => (List.replicate (blocks.length - 1) limit).getD k limit) =
      fun _ => limit := by
    funext k
    rw [List.getD_eq_getElem?_getD, List.getElem?_replicate]
    split <;> rfl
  rw [budget, List.nil_append, List.length_nil] at chosen
  have selected : (if (selectIntervalId (gather (genIntervals blocks numData) weightOrder) 0
        (List.replicate (blocks.length - 1) limit)).length ≠ 0 then
      gather (gather (genIntervals blocks numData) weightOrder)
        (selectIntervalId (gather (genIntervals blocks numData) weightOrder) 0
          (List.replicate (blocks.length - 1) limit))
      else gather (genIntervals blocks numData) weightOrder) =
        pack Interval.covers (gather (genIntervals blocks numData) weightOrder) fun _ => limit := by
    split
    · exact chosen
    · -- Nothing is selected only where there is nothing.
      rename_i none_
      rw [List.eq_nil_of_length_eq_zero (not_not.mp none_)] at chosen
      rw [pack_eq_nil (fun _ => positive) chosen.symm]
      rfl
  unfold dataPlacementSingle
  simp only [selected]
  generalize (pack Interval.covers (gather (genIntervals blocks numData) weightOrder) fun _ => limit)
    = kept
  refine gather_perm ?_
  have permuted := argsort_perm (kept.map Interval.start)
  rwa [List.length_map] at permuted

end Plan

/-- The intervals of a node are disjoint and not empty, the plan keeps within the limit,
and what it does not keep covers a block that is full. -/
theorem dataPlacementSingle_budget (blocks : List (List Nat)) (numData limit : Nat)
    (positive : 1 ≤ limit) (distinct : ∀ uni ∈ blocks, uni.Nodup)
    (known : ∀ uni ∈ blocks, ∀ v ∈ uni, v < numData) (weightOrder : List Nat)
    (order : weightOrder.Perm (List.range (genIntervals blocks numData).length)) :
    (∀ interval ∈ genIntervals blocks numData, 1 ≤ interval.stop - interval.start) ∧
      ((genIntervals blocks numData).Pairwise fun x y =>
        x.id = y.id → Disjoint x.covers y.covers) ∧
      (blocks ≠ [] → ∃ plan, dataPlacementSingleCall blocks numData limit weightOrder = some plan) ∧
      ∀ plan, dataPlacementSingleCall blocks numData limit weightOrder = some plan →
        (∀ k, coverCount plan k ≤ limit) ∧
          ∀ interval ∈ genIntervals blocks numData, interval ∉ plan →
            ∃ k ∈ interval.covers, coverCount plan k = limit := by
  refine ⟨?_, genIntervals_disjoint distinct known, ?_, ?_⟩
  · intro interval member
    have order := ((genIntervals_gaps distinct known).1 interval member).order
    omega
  · intro some_
    have count : blocks.length ≠ 0 := fun zero => some_ (List.eq_nil_of_length_eq_zero zero)
    exact ⟨_, if_neg count⟩
  · intro plan result
    unfold dataPlacementSingleCall at result
    split at result
    · exact absurd result (by simp)
    obtain rfl := Option.some.inj result
    have packed := dataPlacementSingle_perm_pack distinct known positive order
    have count (k : Nat) : coverCount (dataPlacementSingle blocks numData limit weightOrder) k =
        load Interval.covers (pack Interval.covers
          (gather (genIntervals blocks numData) weightOrder) fun _ => limit) k := by
      rw [← load_covers, load_perm packed]
    constructor
    · intro k
      rw [count]
      exact load_pack_le _ _ k
    · intro interval member other
      have ordered : interval ∈ gather (genIntervals blocks numData) weightOrder :=
        (gather_perm order).mem_iff.mpr member
      obtain ⟨k, covers, full⟩ :=
        exists_full_of_notMem_pack ordered fun kept => other (packed.mem_iff.mpr kept)
      exact ⟨k, covers, (count k).trans full⟩

/-- Two nodes, each of them in two of three blocks, and one place. -/
theorem dataPlacementSingle_budget_three :
    ∃ plan, dataPlacementSingleCall [[0, 1], [1], [0]] 2 1 [1, 0] = some plan ∧
      (∀ k, coverCount plan k ≤ 1) ∧
        ∀ interval ∈ genIntervals [[0, 1], [1], [0]] 2, interval ∉ plan →
          ∃ k ∈ interval.covers, coverCount plan k = 1 := by
  obtain ⟨-, -, call, budget⟩ := dataPlacementSingle_budget [[0, 1], [1], [0]] 2 1 (by decide)
    (by decide) (by decide) [1, 0] (by decide)
  obtain ⟨plan, result⟩ := call (by decide)
  exact ⟨plan, result, budget plan result⟩

end Dolphin.Memory
