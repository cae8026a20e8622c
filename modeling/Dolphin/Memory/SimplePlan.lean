import Dolphin.Memory.DiskMemory

/-!
# What the plan says about a block

`Cached intervals b v` says that the plan keeps node `v` in the cache between the
blocks `b - 1` and `b`. In block `b` the cached nodes of its list leave the cache
and those at which an interval starts enter it; the nodes that are not in the list
stay where they are.
-/

namespace Dolphin.Memory

open Dolphin.Tensor

/-- The node is in the cache when the blocks before block `b` are done. -/
def Cached (intervals : List Interval) (b v : Nat) : Prop :=
  ∃ interval ∈ intervals, interval.id = v ∧ interval.start < b ∧ b ≤ interval.stop

/-- An interval of the node starts in the block. -/
def Starts (intervals : List Interval) (b v : Nat) : Prop :=
  v ∈ (intervals.filter fun interval => interval.start == b).map Interval.id

instance (intervals : List Interval) (b v : Nat) : Decidable (Starts intervals b v) :=
  inferInstanceAs (Decidable (_ ∈ _))

section Turn

variable {blocks : List (List Nat)} {intervals : List Interval}
  (gaps : ∀ interval ∈ intervals, Gap blocks interval)
  {b : Nat} {uni : List Nat} (own : blocks[b]? = some uni)

include gaps own

theorem Starts.mem {v : Nat} (starts : Starts intervals b v) : v ∈ uni := by
  obtain ⟨interval, member, rfl⟩ := List.mem_map.mp starts
  obtain ⟨planned, start⟩ := List.mem_filter.mp member
  obtain ⟨list, found, node⟩ := (gaps interval planned).opens
  rw [beq_iff_eq.mp start, own] at found
  obtain rfl := Option.some.inj found
  exact node

/-- The nodes that leave the cache are the cached ones of the list. -/
theorem mem_curEndFlushIdx {v : Nat} :
    v ∈ curEndFlushIdx intervals b ↔ v ∈ uni ∧ Cached intervals b v := by
  simp only [curEndFlushIdx, List.mem_map, List.mem_filter, beq_iff_eq]
  constructor
  · rintro ⟨interval, ⟨planned, rfl⟩, rfl⟩
    have gap := gaps interval planned
    obtain ⟨list, found, node⟩ := gap.closes
    rw [own] at found
    obtain rfl := Option.some.inj found
    exact ⟨node, interval, planned, rfl, gap.order, Nat.le_refl _⟩
  · rintro ⟨member, interval, planned, rfl, before, covers⟩
    refine ⟨interval, ⟨planned, ?_⟩, rfl⟩
    by_contra later
    exact (gaps interval planned).between b before (by omega) ⟨uni, own, member⟩

/-- A node of the list is cached afterwards if an interval starts. -/
theorem cached_succ_of_mem {v : Nat} (member : v ∈ uni) :
    Cached intervals (b + 1) v ↔ Starts intervals b v := by
  simp only [Starts, List.mem_map, List.mem_filter, beq_iff_eq]
  constructor
  · rintro ⟨interval, planned, rfl, before, covers⟩
    refine ⟨interval, ⟨planned, ?_⟩, rfl⟩
    by_contra earlier
    exact (gaps interval planned).between b (by omega) (by omega) ⟨uni, own, member⟩
  · rintro ⟨interval, ⟨planned, rfl⟩, rfl⟩
    exact ⟨interval, planned, rfl, Nat.lt_succ_self _, (gaps interval planned).order⟩

/-- The other nodes stay in the cache or out of it. -/
theorem cached_succ_of_notMem {v : Nat} (other : v ∉ uni) :
    Cached intervals (b + 1) v ↔ Cached intervals b v := by
  constructor
  · rintro ⟨interval, planned, rfl, before, covers⟩
    refine ⟨interval, planned, rfl, ?_, by omega⟩
    by_contra start
    obtain ⟨list, found, node⟩ := (gaps interval planned).opens
    have here : interval.start = b := by omega
    rw [here, own] at found
    obtain rfl := Option.some.inj found
    exact other node
  · rintro ⟨interval, planned, rfl, before, covers⟩
    refine ⟨interval, planned, rfl, by omega, ?_⟩
    by_contra stop
    obtain ⟨list, found, node⟩ := (gaps interval planned).closes
    have here : interval.stop = b := by omega
    rw [here, own] at found
    obtain rfl := Option.some.inj found
    exact other node

end Turn

/-- Before the first block nothing is cached. -/
theorem not_cached_zero (intervals : List Interval) (v : Nat) : ¬Cached intervals 0 v := by
  rintro ⟨interval, -, -, before, -⟩
  exact Nat.not_lt_zero _ before

theorem mem_genBatchPlan {intervals : List Interval} {b v : Nat} :
    v ∈ genBatchPlan intervals b ↔ Cached intervals (b + 1) v := by
  simp only [genBatchPlan, Cached, List.mem_map, List.mem_filter, Bool.decide_and,
    Bool.and_eq_true, decide_eq_true_eq]
  constructor
  · rintro ⟨interval, ⟨planned, before, covers⟩, own⟩
    exact ⟨interval, planned, own, by omega, by omega⟩
  · rintro ⟨interval, planned, own, before, covers⟩
    exact ⟨interval, ⟨planned, by omega, by omega⟩, own⟩

/-! ## The saved tensors -/

variable {blocks : List (List Nat)} {intervals : List Interval} {b : Nat} {uni : List Nat}

/-- The part of a saved tensor that belongs to a block. -/
theorem raggedRow_blocks {β : Type} (rows : List Nat → Nat → List β)
    (own : blocks[b]? = some uni) :
    raggedRow (blocks.zipIdx.map fun block => rows block.1 block.2).flatten
      (cumsum 0 (0 :: (blocks.zipIdx.map fun block => rows block.1 block.2).map List.length)) b =
        rows uni b := by
  obtain ⟨bound, entry⟩ := List.getElem?_eq_some_iff.mp own
  rw [raggedRow_flatten (by simpa using bound)]
  simp [entry]

theorem genSimple_endFlush (own : blocks[b]? = some uni) :
    raggedRow (genSimple blocks intervals).endFlushIdx (genSimple blocks intervals).endFlushPtr b =
      curEndFlushIdx intervals b :=
  raggedRow_blocks (fun _ i => curEndFlushIdx intervals i) own

theorem genSimple_startCache (own : blocks[b]? = some uni) :
    raggedRow (genSimple blocks intervals).startCacheInd
      (genSimple blocks intervals).startCachePtr b = nonzero (curStartMask intervals uni b) :=
  raggedRow_blocks (fun uni i => nonzero (curStartMask intervals uni i)) own

theorem genSimple_startFlush (own : blocks[b]? = some uni) :
    raggedRow (genSimple blocks intervals).startFlushInd
        (genSimple blocks intervals).startFlushPtr b =
      nonzero ((curStartMask intervals uni b).map (!·)) :=
  raggedRow_blocks (fun uni i => nonzero ((curStartMask intervals uni i).map (!·))) own

/-- The mask as a condition on the nodes. -/
theorem curStartMask_eq (intervals : List Interval) (uni : List Nat) (b : Nat) :
    curStartMask intervals uni b = uni.map fun v => decide (Starts intervals b v) := by
  simp only [curStartMask, isin, Bool.bne_false]
  exact List.map_congr_left fun v _ => decide_eq_decide.mpr Iff.rfl

/-- Rows of the nodes that enter the cache. -/
theorem gather_startCache {β : Type} [Inhabited β] (f : Nat → β) :
    gather (uni.map f) (nonzero (curStartMask intervals uni b)) =
      (uni.filter fun v => decide (Starts intervals b v)).map f := by
  rw [curStartMask_eq, gather_nonzero (by simp), maskSelect_map]

/-- Rows of the nodes that are written to the file. -/
theorem gather_startFlush {β : Type} [Inhabited β] (f : Nat → β) :
    gather (uni.map f) (nonzero ((curStartMask intervals uni b).map (!·))) =
      (uni.filter fun v => !decide (Starts intervals b v)).map f := by
  rw [curStartMask_eq, List.map_map, gather_nonzero (by simp)]
  exact maskSelect_map _ f uni

/-- No batch plan is larger than `simple_max_num`. -/
theorem genBatchPlan_length_le (bound : b < blocks.length) :
    (genBatchPlan intervals b).length ≤ (genSimple blocks intervals).simpleMaxNum := by
  have fold : ∀ (is : List Nat) (start : Nat),
      let largest := is.foldl (fun maxNum i => max maxNum (genBatchPlan intervals i).length) start
      start ≤ largest ∧ ∀ i ∈ is, (genBatchPlan intervals i).length ≤ largest := by
    intro is
    induction is with
    | nil => simp
    | cons i is ih =>
        intro start
        obtain ⟨first, rest⟩ := ih (max start (genBatchPlan intervals i).length)
        refine ⟨Nat.le_trans (Nat.le_max_left _ _) first, ?_⟩
        intro j member
        rcases List.mem_cons.mp member with rfl | later
        · exact Nat.le_trans (Nat.le_max_right _ _) first
        · exact rest j later
  exact (fold (List.range blocks.length) 0).2 b (List.mem_range.mpr bound)

end Dolphin.Memory
