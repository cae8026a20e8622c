import Dolphin.Tensor.Sort

/-!
# Intervals of the node-memory planner

Between two blocks that have a node in their lists, with none in between, the
node's memory is not read or written by the lists: the planner calls this an
interval and keeps the node's row in the cache for some of them.

`Gap` says what an interval is. The plan of `data_placement_single` is a list of
distinct gaps, whatever the limit is and however the weights are sorted, and this
is all that the cache needs.
-/

namespace Dolphin.Memory

open Dolphin.Tensor

/-- One entry of `start`, `end` and `IDs`. -/
structure Interval where
  start : Nat
  stop : Nat
  id : Nat
  deriving DecidableEq, Inhabited

/-- `block_info`: for each block the nodes to be written, which `torch.unique`
makes distinct. -/
structure BlockInfo where
  blocks : List (List Nat)
  numNodes : Nat
  distinct : ∀ uni ∈ blocks, uni.Nodup
  known : ∀ uni ∈ blocks, ∀ v ∈ uni, v < numNodes

/-- The arrays of `gen_intervals`. -/
structure GenState where
  lastFlag : List Bool
  lastUsed : List Nat
  intervals : List Interval

/-- The loop body for block `i`. -/
def GenState.block (state : GenState) (uni : List Nat) (i : Nat) : GenState :=
  let targetId := uni.filter fun v => state.lastFlag.getD v false
  let targetLastUsed := gather state.lastUsed targetId
  { intervals := state.intervals ++
      List.zipWith (fun start id => ⟨start, i, id⟩) targetLastUsed targetId
    lastUsed := indexFill state.lastUsed uni i
    lastFlag := indexFill state.lastFlag uni true }

/-- The blocks from block `i` on. -/
def GenState.run (state : GenState) : List (List Nat) → Nat → GenState
  | [], _ => state
  | uni :: blocks, i => (state.block uni i).run blocks (i + 1)

/-- `gen_intervals(uni_list, num_data)`. -/
def genIntervals (blocks : List (List Nat)) (numData : Nat) : List Interval :=
  (GenState.run ⟨List.replicate numData false, List.replicate numData blocks.length, []⟩
    blocks 0).intervals

/-- `select_interval_ID`: the positions of the intervals that fit the budget of
every block they cover. -/
def selectIntervalId : List Interval → Nat → List Nat → List Nat
  | [], _, _ => []
  | interval :: rest, i, budget =>
      let covered := (budget.take interval.stop).drop interval.start
      if covered.any (· < 1) then selectIntervalId rest (i + 1) budget
      else
        i :: selectIntervalId rest (i + 1)
          (budget.take interval.start ++ covered.map (· - 1) ++ budget.drop interval.stop)

/-- `data_placement_single`. `weightOrder` are the positions in the order of the
weights; `start`, `end` and `IDs` move together. Where nothing is selected, all
intervals stay. -/
def dataPlacementSingle (blocks : List (List Nat)) (numData limit : Nat)
    (weightOrder : List Nat) : List Interval :=
  let intervals := gather (genIntervals blocks numData) weightOrder
  let selId := selectIntervalId intervals 0 (List.replicate (blocks.length - 1) limit)
  let selected := if selId.length ≠ 0 then gather intervals selId else intervals
  gather selected (argsort (selected.map Interval.start))

/-! ## Gaps -/

/-- The block has the node. -/
def HasNode (blocks : List (List Nat)) (k v : Nat) : Prop :=
  ∃ uni, blocks[k]? = some uni ∧ v ∈ uni

/-- Two blocks that have the node, and no block between them that has it. -/
structure Gap (blocks : List (List Nat)) (interval : Interval) : Prop where
  order : interval.start < interval.stop
  opens : HasNode blocks interval.start interval.id
  closes : HasNode blocks interval.stop interval.id
  between : ∀ k, interval.start < k → k < interval.stop → ¬HasNode blocks k interval.id

/-- Gaps of one node that cover the same block are the same. -/
theorem Gap.unique {blocks : List (List Nat)} {x y : Interval} (gapX : Gap blocks x)
    (gapY : Gap blocks y) (same : x.id = y.id) {k : Nat} (inX : x.start < k ∧ k ≤ x.stop)
    (inY : y.start < k ∧ k ≤ y.stop) : x = y := by
  have starts : x.start = y.start := by
    rcases Nat.lt_trichotomy x.start y.start with less | equal | greater
    · have opens := gapY.opens
      rw [← same] at opens
      exact absurd opens (gapX.between _ less (by omega))
    · exact equal
    · have opens := gapX.opens
      rw [same] at opens
      exact absurd opens (gapY.between _ greater (by omega))
  have stops : x.stop = y.stop := by
    rcases Nat.lt_trichotomy x.stop y.stop with less | equal | greater
    · have closes := gapX.closes
      rw [same] at closes
      exact absurd closes (gapY.between _ (by omega) less)
    · exact equal
    · have closes := gapY.closes
      rw [← same] at closes
      exact absurd closes (gapX.between _ (by omega) greater)
  cases x
  cases y
  simp_all

/-- What the arrays say when the blocks before block `i` are done. -/
structure Generated (blocks : List (List Nat)) (numData i : Nat) (state : GenState) : Prop where
  flagLength : state.lastFlag.length = numData
  usedLength : state.lastUsed.length = numData
  flag : ∀ v, state.lastFlag.getD v false = true ↔ ∃ k < i, HasNode blocks k v
  used : ∀ v, state.lastFlag.getD v false = true →
    state.lastUsed.getD v default < i ∧ HasNode blocks (state.lastUsed.getD v default) v ∧
      ∀ k, state.lastUsed.getD v default < k → k < i → ¬HasNode blocks k v
  gaps : ∀ interval ∈ state.intervals, interval.stop < i ∧ Gap blocks interval
  distinct : state.intervals.Nodup

/-- The new intervals of a block. -/
theorem GenState.block_intervals (state : GenState) (uni : List Nat) (i : Nat) :
    (state.block uni i).intervals = state.intervals ++
      (uni.filter fun v => state.lastFlag.getD v false).map fun v =>
        ⟨state.lastUsed.getD v default, i, v⟩ := by
  unfold GenState.block gather
  simp only
  rw [List.zipWith_map_left, List.zipWith_self]

theorem Generated.block {blocks : List (List Nat)} {numData i : Nat} {state : GenState}
    (generated : Generated blocks numData i state) {uni : List Nat} (own : blocks[i]? = some uni)
    (distinct : uni.Nodup) (known : ∀ v ∈ uni, v < numData) :
    Generated blocks numData (i + 1) (state.block uni i) := by
  have has : ∀ v, HasNode blocks i v ↔ v ∈ uni := by
    intro v
    simp [HasNode, own]
  have flag : ∀ v, (state.block uni i).lastFlag.getD v false =
      if v ∈ uni then true else state.lastFlag.getD v false := by
    exact getD_indexFill (by simpa [generated.flagLength] using known) true false
  have used : ∀ v, (state.block uni i).lastUsed.getD v default =
      if v ∈ uni then i else state.lastUsed.getD v default := by
    exact getD_indexFill (by simpa [generated.usedLength] using known) i default
  refine ⟨?_, ?_, ?_, ?_, ?_, ?_⟩
  · simp [GenState.block, generated.flagLength]
  · simp [GenState.block, generated.usedLength]
  · intro v
    rw [flag]
    by_cases member : v ∈ uni
    · rw [if_pos member]
      simp only [true_iff]
      exact ⟨i, Nat.lt_succ_self i, (has v).mpr member⟩
    · rw [if_neg member, generated.flag]
      constructor
      · rintro ⟨k, before, node⟩
        exact ⟨k, Nat.lt_succ_of_lt before, node⟩
      · rintro ⟨k, before, node⟩
        rcases Nat.lt_succ_iff_lt_or_eq.mp before with earlier | rfl
        · exact ⟨k, earlier, node⟩
        · exact absurd ((has v).mp node) member
  · intro v seen
    rw [used]
    by_cases member : v ∈ uni
    · rw [if_pos member]
      refine ⟨Nat.lt_succ_self i, (has v).mpr member, ?_⟩
      intro k after before
      omega
    · rw [if_neg member]
      rw [flag, if_neg member] at seen
      obtain ⟨before, node, last⟩ := generated.used v seen
      refine ⟨Nat.lt_succ_of_lt before, node, ?_⟩
      intro k after before
      rcases Nat.lt_succ_iff_lt_or_eq.mp before with earlier | rfl
      · exact last k after earlier
      · exact fun node => member ((has v).mp node)
  · intro interval member
    rw [GenState.block_intervals, List.mem_append, List.mem_map] at member
    rcases member with old | ⟨v, target, rfl⟩
    · obtain ⟨stop, gap⟩ := generated.gaps interval old
      exact ⟨Nat.lt_succ_of_lt stop, gap⟩
    · obtain ⟨member, seen⟩ := List.mem_filter.mp target
      obtain ⟨before, node, last⟩ := generated.used v seen
      exact ⟨Nat.lt_succ_self i, before, node, (has v).mpr member, last⟩
  · rw [GenState.block_intervals]
    refine List.nodup_append.mpr ⟨generated.distinct, ?_, ?_⟩
    · refine (distinct.filter _).map fun v w same => ?_
      exact congrArg Interval.id same
    · rintro x old y new rfl
      obtain ⟨v, -, rfl⟩ := List.mem_map.mp new
      exact Nat.lt_irrefl _ (generated.gaps _ old).1

theorem Generated.run {blocks : List (List Nat)} {numData : Nat} {rest done : List (List Nat)}
    {state : GenState} (generated : Generated blocks numData done.length state)
    (split : blocks = done ++ rest) (distinct : ∀ uni ∈ blocks, uni.Nodup)
    (known : ∀ uni ∈ blocks, ∀ v ∈ uni, v < numData) :
    Generated blocks numData blocks.length (state.run rest done.length) := by
  induction rest generalizing done state with
  | nil =>
      obtain rfl : blocks = done := by simpa using split
      exact generated
  | cons uni rest ih =>
      have member : uni ∈ blocks := by simp [split]
      have own : blocks[done.length]? = some uni := by simp [split]
      have next := generated.block own (distinct uni member) (known uni member)
      have length : (done ++ [uni]).length = done.length + 1 := by simp
      rw [← length] at next
      have result := ih next (by simp [split])
      rwa [length] at result

/-- The generated intervals are distinct gaps. -/
theorem genIntervals_gaps {blocks : List (List Nat)} {numData : Nat}
    (distinct : ∀ uni ∈ blocks, uni.Nodup) (known : ∀ uni ∈ blocks, ∀ v ∈ uni, v < numData) :
    (∀ interval ∈ genIntervals blocks numData, Gap blocks interval) ∧
      (genIntervals blocks numData).Nodup := by
  have start : Generated blocks numData ([] : List (List Nat)).length
      ⟨List.replicate numData false, List.replicate numData blocks.length, []⟩ := by
    refine ⟨by simp, by simp, ?_, ?_, by simp, List.nodup_nil⟩
    · intro v
      simp [List.getD_eq_getElem?_getD, List.getElem?_replicate]
      split <;> rfl
    · intro v seen
      simp [List.getElem?_replicate] at seen
      split at seen <;> simp at seen
  have final := start.run rfl distinct known
  exact ⟨fun interval member => (final.gaps interval member).2, final.distinct⟩

/-! ## The plan -/

/-- The chosen positions are increasing positions of the list. -/
theorem selectIntervalId_sublist (intervals : List Interval) (i : Nat) (budget : List Nat) :
    (selectIntervalId intervals i budget).Sublist (List.range' i intervals.length) := by
  induction intervals generalizing i budget with
  | nil => simp [selectIntervalId]
  | cons interval rest ih =>
      rw [selectIntervalId, List.length_cons, List.range'_succ]
      split
      · exact (ih (i + 1) budget).cons _
      · exact (ih (i + 1) _).cons_cons _

/-- Whatever is selected and however it is sorted, the plan has distinct gaps. -/
theorem dataPlacementSingle_gaps (info : BlockInfo) (limit : Nat) {weightOrder : List Nat}
    (order : weightOrder.Perm
      (List.range (genIntervals info.blocks (info.numNodes + 1)).length)) :
    (∀ interval ∈ dataPlacementSingle info.blocks (info.numNodes + 1) limit weightOrder,
      Gap info.blocks interval) ∧
      (dataPlacementSingle info.blocks (info.numNodes + 1) limit weightOrder).Nodup := by
  obtain ⟨gaps, distinct⟩ := genIntervals_gaps info.distinct
    (fun uni member v inside => Nat.lt_succ_of_lt (info.known uni member v inside))
  have subperm : (dataPlacementSingle info.blocks (info.numNodes + 1) limit weightOrder).Subperm
      (genIntervals info.blocks (info.numNodes + 1)) := by
    unfold dataPlacementSingle
    simp only
    have ordered : (gather (genIntervals info.blocks (info.numNodes + 1)) weightOrder).Subperm
        (genIntervals info.blocks (info.numNodes + 1)) :=
      gather_subperm (order.nodup_iff.mpr List.nodup_range) fun i member => by
        simpa using order.mem_iff.mp member
    refine (gather_subperm (argsort_nodup _) fun i member => ?_).trans ?_
    · simpa using argsort_lt member
    · split
      · refine (gather_subperm ?_ fun i member => ?_).trans ordered
        · exact (selectIntervalId_sublist _ _ _).nodup List.nodup_range'
        · have bound := (selectIntervalId_sublist _ _ _).subset member
          rw [List.mem_range'_1] at bound
          omega
      · exact ordered
  obtain ⟨chosen, perm, sublist⟩ := subperm
  refine ⟨fun interval member => gaps interval ?_, perm.nodup_iff.mp (sublist.nodup distinct)⟩
  exact sublist.subset (perm.mem_iff.mpr member)

end Dolphin.Memory
