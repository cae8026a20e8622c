import Dolphin.Cache.BucketCache
import Dolphin.Cache.WindowFiles
import Dolphin.Semantics.Largest

/-!
# The ids that a window caches

`gen_part_stream` counts for every node the blocks of the open window that have it. When the
window closes the counters are sorted, and the nodes with the largest ones are cached, as many
as the budget has room for. The counters of the edges are sorted as well, but nothing counts
with them.

The budgets, which the source computes from sizes in bytes, are inputs.
-/

namespace Dolphin.Cache

open Dolphin.Semantics Dolphin.Tensor

/-! ## The loop with its counters -/

/-- The indices of `torch.sort(count, descending=True)` for each window. The order of equal
counters is left open. -/
structure DescendingSort where
  order : Nat → List Nat → List Nat
  perm : ∀ w count, (order w count).Perm (List.range count.length)
  descending : ∀ w count, (order w count).Pairwise fun v u => count.getD u 0 ≤ count.getD v 0

/-- `bucket_nid_count[nid_uni.long()] += 1`: an id that stands twice is counted once. -/
def countIds (count ids : List Nat) : List Nat :=
  count.mapIdx fun v n => if v ∈ ids then n + 1 else n

/-- What the loop reads when it chooses the ids. -/
structure CountInput where
  hasEf : Bool
  batchSize : Nat
  edgeEnd : Nat
  nidUni : Nat → List Nat
  eidUni : Nat → List Nat
  totalNodeNum : Nat
  totalEdgeNum : Nat
  nodeIdxBudget : Nat
  edgeIdxBudget : Nat
  nodeWindowSize : Nat
  edgeWindowSize : Nat
  nodeSort : DescendingSort
  edgeSort : DescendingSort

/-- The variables of the loop, with the counters. -/
structure CountState where
  plan : PlanState
  bucketNidCount : List Nat
  bucketEidCount : List Nat

namespace CountInput

variable (input : CountInput)

/-- The loop with given choices. -/
def choosing (cacheNid cacheEid : Nat → List Nat) : FlushInput where
  hasEf := input.hasEf
  batchSize := input.batchSize
  edgeEnd := input.edgeEnd
  nidUni := input.nidUni
  eidUni := input.eidUni
  cacheNid := cacheNid
  cacheEid := cacheEid
  nodeWindowSize := input.nodeWindowSize
  edgeWindowSize := input.edgeWindowSize

/-- `bucket_nid_count_sort_idx[:node_idx_budget]`. -/
def cacheNid (state : CountState) : List Nat :=
  (input.nodeSort.order state.plan.preThresholdNum state.bucketNidCount).take input.nodeIdxBudget

/-- `bucket_eid_count_sort_idx[:edge_idx_budget]`. -/
def cacheEid (state : CountState) : List Nat :=
  (input.edgeSort.order state.plan.preThresholdNum state.bucketEidCount).take input.edgeIdxBudget

/-- The loop with the choices of the counters. -/
def counted (state : CountState) : FlushInput :=
  input.choosing (fun _ => input.cacheNid state) fun _ => input.cacheEid state

/-- One turn of the loop. A window that closes sets the counters back before the block is
counted. -/
def step (state : CountState) (block : Nat) : CountState :=
  let closes := state.plan.preThresholdNum < (input.counted state).right block / threshold
  { plan := (input.counted state).step state.plan block
    bucketNidCount := countIds
      (if closes then state.bucketNidCount.map fun _ => 0 else state.bucketNidCount)
      (input.nidUni block)
    -- the line that counts the edges of the block is commented out
    bucketEidCount :=
      if closes then state.bucketEidCount.map fun _ => 0 else state.bucketEidCount }

/-- The variables after some turns. -/
def after : Nat → CountState
  | 0 =>
      { plan := ⟨0, 0, [], .initial, .initial⟩
        bucketNidCount := List.replicate input.totalNodeNum 0
        bucketEidCount := List.replicate (if input.hasEf then input.totalEdgeNum else 0) 0 }
  | block + 1 => input.step (after block) block

/-- The number of turns. -/
def blockNum : Nat := (input.edgeEnd + input.batchSize - 1) / input.batchSize

/-- `gen_part_stream` with its own choices. -/
def genPartStream : PlanState :=
  let state := input.after input.blockNum
  (input.counted state).closeWindow state.plan

/-! ## What the counters say -/

/-- The window of a block. -/
def windowOf (block : Nat) : Nat := (input.choosing (fun _ => []) fun _ => []).windowOf block

/-- The blocks of a window. -/
def windowBlocks (w : Nat) : List Nat :=
  (List.range input.blockNum).filter (input.windowOf · = w)

/-- The number of these blocks that have a node. -/
def uses (blocks : List Nat) (v : Nat) : Nat := blocks.countP (v ∈ input.nidUni ·)

/-- The nodes that most blocks of a window have. -/
def chosenNid (w : Nat) : List Nat :=
  (input.nodeSort.order w
    ((List.range input.totalNodeNum).map (input.uses (input.windowBlocks w)))).take
      input.nodeIdxBudget

/-- The edges of a window: they do not depend on the blocks. -/
def chosenEid (w : Nat) : List Nat :=
  (input.edgeSort.order w
    (List.replicate (if input.hasEf then input.totalEdgeNum else 0) 0)).take input.edgeIdxBudget

/-- The run in which they are chosen. -/
def mostUsed : FlushInput := input.choosing input.chosenNid input.chosenEid

variable {input}

/-- The windows do not depend on the choices. -/
theorem mostUsed_windowNum (block : Nat) :
    input.mostUsed.windowNum block =
      (input.choosing (fun _ => []) fun _ => []).windowNum block := by
  induction block with
  | zero => rfl
  | succ block ih =>
      rw [PlanInput.windowNum, PlanInput.windowNum, ih]
      rfl

@[simp] theorem mostUsed_windowOf (block : Nat) :
    input.mostUsed.windowOf block = input.windowOf block :=
  mostUsed_windowNum (block + 1)

/-- The open window and its blocks, whatever is chosen. -/
theorem after_window (plan : PlanInput) (turns : Nat) :
    (plan.after turns).preThresholdNum = plan.windowNum turns ∧
      (plan.after turns).bucketHis =
        (List.range turns).filter (plan.windowOf · = plan.windowNum turns) := by
  induction turns with
  | zero => exact ⟨rfl, rfl⟩
  | succ turns ih =>
      obtain ⟨number, blocks⟩ := ih
      have own : plan.windowOf turns = plan.windowNum (turns + 1) := rfl
      rw [PlanInput.after, PlanInput.step, number, List.range_succ, List.filter_append,
        List.filter_singleton, decide_eq_true own]
      split
      case isTrue passed =>
          have next : plan.windowNum (turns + 1) = plan.windowNum turns + 1 := by
            rw [PlanInput.windowNum, if_pos passed]
          have early : (List.range turns).filter (plan.windowOf · = plan.windowNum (turns + 1)) =
              [] := by
            refine List.filter_eq_nil_iff.mpr fun block member => ?_
            have before : plan.windowOf block ≤ plan.windowNum turns := by
              obtain ⟨last, rfl⟩ : ∃ last, turns = last + 1 :=
                Nat.exists_eq_succ_of_ne_zero (by rintro rfl; simp at member)
              exact plan.windowOf_mono (Nat.le_of_lt_succ (List.mem_range.mp member))
            simp only [decide_eq_true_eq]
            omega
          exact ⟨next.symm, by rw [early]; rfl⟩
      case isFalse stays =>
          have next : plan.windowNum (turns + 1) = plan.windowNum turns := by
            rw [PlanInput.windowNum, if_neg stays]
          exact ⟨next.symm, by rw [next, ← blocks]; rfl⟩

/-- A window that closes has all its blocks. -/
theorem windowBlocks_eq {turns : Nat} (bound : turns ≤ input.blockNum)
    (closes : turns < input.blockNum → input.mostUsed.windowNum turns < input.windowOf turns) :
    input.windowBlocks (input.mostUsed.windowNum turns) =
      (List.range turns).filter (input.mostUsed.windowOf · = input.mostUsed.windowNum turns) := by
  obtain ⟨more, total⟩ := Nat.exists_eq_add_of_le bound
  have later : ((List.range more).map (turns + ·)).filter
      (input.windowOf · = input.mostUsed.windowNum turns) = [] := by
    refine List.filter_eq_nil_iff.mpr fun block member => ?_
    obtain ⟨i, inside, rfl⟩ := List.mem_map.mp member
    have above := closes (by have := List.mem_range.mp inside; omega)
    have order := input.mostUsed.windowOf_mono (Nat.le_add_right turns i)
    rw [mostUsed_windowOf, mostUsed_windowOf] at order
    simp only [decide_eq_true_eq]
    omega
  rw [windowBlocks, total, List.range_add, List.filter_append, later, List.append_nil]
  simp only [mostUsed_windowOf]

/-- One more block is counted. -/
theorem countIds_uses (blocks : List Nat) (block : Nat) :
    countIds ((List.range input.totalNodeNum).map (input.uses blocks)) (input.nidUni block) =
      (List.range input.totalNodeNum).map (input.uses (blocks ++ [block])) := by
  refine List.ext_getElem (by simp [countIds]) fun v _ _ => ?_
  by_cases used : v ∈ input.nidUni block <;> simp [countIds, uses, used]

/-- The loop runs along the plan with the choices of the counters. -/
structure Counted (input : CountInput) (turns : Nat) (state : CountState) : Prop where
  plan : state.plan = input.mostUsed.after turns
  node : state.bucketNidCount =
    (List.range input.totalNodeNum).map (input.uses state.plan.bucketHis)
  edge : state.bucketEidCount =
    List.replicate (if input.hasEf then input.totalEdgeNum else 0) 0

/-- A window that closes is given the ids chosen for it. -/
theorem Counted.closeWindow {turns : Nat} {state : CountState} (counted : input.Counted turns state)
    (bound : turns ≤ input.blockNum)
    (closes : turns < input.blockNum → input.mostUsed.windowNum turns < input.windowOf turns) :
    (input.counted state).closeWindow state.plan = input.mostUsed.closeWindow state.plan := by
  obtain ⟨number, blocks⟩ := after_window input.mostUsed.toPlanInput turns
  rw [← counted.plan] at number blocks
  have node : input.cacheNid state = input.chosenNid state.plan.preThresholdNum := by
    rw [cacheNid, chosenNid, counted.node, blocks, number, windowBlocks_eq bound closes]
  have edge : input.cacheEid state = input.chosenEid state.plan.preThresholdNum := by
    rw [cacheEid, chosenEid, counted.edge]
  simp only [PlanInput.closeWindow, CountInput.counted, mostUsed, choosing, node, edge]
  rfl

theorem Counted.step {turns : Nat} {state : CountState} (counted : input.Counted turns state)
    (more : turns < input.blockNum) : input.Counted (turns + 1) (input.step state turns) := by
  obtain ⟨number, -⟩ := after_window input.mostUsed.toPlanInput turns
  rw [← counted.plan] at number
  by_cases closes : state.plan.preThresholdNum < input.mostUsed.right turns / threshold
  · have next : input.mostUsed.windowNum turns < input.windowOf turns := by
      rw [← mostUsed_windowOf, PlanInput.windowOf, PlanInput.windowNum,
        if_pos (number ▸ closes)]
      exact Nat.lt_succ_self _
    have same := counted.closeWindow (Nat.le_of_lt more) fun _ => next
    refine ⟨?_, ?_, ?_⟩
    · rw [PlanInput.after, ← counted.plan]
      simp only [CountInput.step, PlanInput.step]
      rw [same]
      rfl
    · have zeros : (state.bucketNidCount.map fun _ => 0) =
          (List.range input.totalNodeNum).map (input.uses []) := by
        rw [counted.node, List.map_map]
        rfl
      have first : (input.step state turns).plan.bucketHis = [turns] := by
        simp only [CountInput.step, PlanInput.step]
        exact congrArg PlanState.bucketHis (if_pos closes)
      rw [first]
      refine Eq.trans ?_ (countIds_uses [] turns)
      exact congrArg (countIds · (input.nidUni turns)) ((if_pos closes).trans zeros)
    · refine (if_pos closes).trans ?_
      rw [counted.edge, List.map_replicate]
  · refine ⟨?_, ?_, (if_neg closes).trans counted.edge⟩
    · rw [PlanInput.after, ← counted.plan]
      exact (if_neg closes).trans (if_neg closes).symm
    · have longer : (input.step state turns).plan.bucketHis = state.plan.bucketHis ++ [turns] := by
        simp only [CountInput.step, PlanInput.step]
        exact congrArg PlanState.bucketHis (if_neg closes)
      rw [longer]
      refine Eq.trans ?_ (countIds_uses state.plan.bucketHis turns)
      exact congrArg (countIds · (input.nidUni turns)) ((if_neg closes).trans counted.node)

theorem after_counted (input : CountInput) {turns : Nat} (bound : turns ≤ input.blockNum) :
    input.Counted turns (input.after turns) := by
  induction turns with
  | zero =>
      refine ⟨rfl, List.ext_getElem (by simp [CountInput.after]) fun v _ _ => ?_, rfl⟩
      simp [CountInput.after, uses]
  | succ turns ih => exact (ih (Nat.le_of_succ_le bound)).step bound

/-- The run with its own counters is the run with the most frequent ids. -/
theorem genPartStream_eq (input : CountInput) :
    input.genPartStream = input.mostUsed.genPartStream := by
  have counted := input.after_counted (Nat.le_refl input.blockNum)
  rw [CountInput.genPartStream, counted.closeWindow (Nat.le_refl _) fun more =>
    absurd more (Nat.lt_irrefl _), counted.plan]
  rfl

/-! ## What is chosen -/

theorem mem_order {sort : DescendingSort} {w v : Nat} {count : List Nat}
    (member : v ∈ sort.order w count) : v < count.length :=
  List.mem_range.mp ((sort.perm w count).mem_iff.mp member)

/-- The front of a sort: distinct positions, as many as are asked for. -/
theorem take_order (sort : DescendingSort) (w budget : Nat) (count : List Nat) :
    ((sort.order w count).take budget).Nodup ∧
      ((sort.order w count).take budget).length = min budget count.length ∧
      ∀ v ∈ (sort.order w count).take budget, v < count.length := by
  refine ⟨((sort.perm w count).nodup_iff.mpr List.nodup_range).sublist
    (List.take_sublist _ _), ?_, fun v member => mem_order (List.mem_of_mem_take member)⟩
  rw [List.length_take, (sort.perm w count).length_eq, List.length_range]

/-- The nodes chosen for a window: distinct, in the table, as many as there is room for. -/
theorem chosenNid_fits (input : CountInput) (w : Nat) : (input.chosenNid w).Nodup ∧
    (input.chosenNid w).length = min input.nodeIdxBudget input.totalNodeNum ∧
    ∀ v ∈ input.chosenNid w, v < input.totalNodeNum := by
  have fits := take_order input.nodeSort w input.nodeIdxBudget
    ((List.range input.totalNodeNum).map (input.uses (input.windowBlocks w)))
  rwa [List.length_map, List.length_range] at fits

/-- The nodes chosen for a window are those that most of its blocks have. -/
theorem chosenNid_largest (input : CountInput) (w : Nat) :
    Largest (input.uses (input.windowBlocks w)) input.nodeIdxBudget
      (List.range input.totalNodeNum) (input.chosenNid w) := by
  let count := (List.range input.totalNodeNum).map (input.uses (input.windowBlocks w))
  have perm := input.nodeSort.perm w count
  have value : ∀ v ∈ input.nodeSort.order w count,
      count.getD v 0 = input.uses (input.windowBlocks w) v := by
    intro v member
    have inside : v < input.totalNodeNum := by simpa [count] using mem_order member
    simp [count, inside]
  have descending : (input.nodeSort.order w count).Pairwise fun v u =>
      input.uses (input.windowBlocks w) u ≤ input.uses (input.windowBlocks w) v := by
    refine (input.nodeSort.descending w count).imp_of_mem fun {v u} inV inU order => ?_
    rwa [value v inV, value u inU] at order
  rw [List.length_map, List.length_range] at perm
  exact (Largest.take descending input.nodeIdxBudget).perm perm

/-! ## The caches of a run -/

/-- The ids of a block that a list has. -/
def hits (input : CountInput) (cached : List Nat) (block : Nat) : Nat :=
  (input.nidUni block).countP (· ∈ cached)

/-- The list that the cache of a window holds. -/
def cachedNid (input : CountInput) (w : Nat) : List Nat := cacheList input.chosenNid w

theorem cachedNid_perm (input : CountInput) (w : Nat) :
    (input.cachedNid w).Perm (input.chosenNid w) := by
  refine PlanInput.cacheList_perm (fun w => (input.chosenNid_fits w).1) (fun w => ?_) w
  rw [(input.chosenNid_fits w).2.1, (input.chosenNid_fits 0).2.1]

/-- No other list of as many nodes has more hits in the blocks of a window. -/
theorem sum_hits_le (distinct : ∀ block, (input.nidUni block).Nodup)
    (known : ∀ block, ∀ v ∈ input.nidUni block, v < input.totalNodeNum) (w : Nat)
    {other : List Nat} (once : other.Nodup) (few : other.length ≤ input.nodeIdxBudget) :
    ((input.windowBlocks w).map (input.hits other)).sum ≤
      ((input.windowBlocks w).map (input.hits (input.cachedNid w))).sum := by
  have largest : Largest
      (fun v => ((input.windowBlocks w).map input.nidUni).countP (v ∈ ·)) input.nodeIdxBudget
      (List.range input.totalNodeNum) (input.chosenNid w) := by
    simp only [List.countP_map]
    exact input.chosenNid_largest w
  have most := largest.hits_le
    (fun request member => by
      obtain ⟨block, -, rfl⟩ := List.mem_map.mp member
      exact distinct block)
    (fun request member v requested => by
      obtain ⟨block, -, rfl⟩ := List.mem_map.mp member
      exact List.mem_range.mpr (known block v requested))
    List.nodup_range once few
  have held : input.hits (input.cachedNid w) = input.hits (input.chosenNid w) := by
    funext block
    exact List.countP_congr fun v _ => by simp [(input.cachedNid_perm w).mem_iff]
  rw [List.map_map, List.map_map] at most
  rw [held]
  exact most

/-- A list of nodes that no other one of its size beats in the blocks of a window. -/
structure MostHits (input : CountInput) (w : Nat) (cached : List Nat) : Prop where
  distinct : cached.Nodup
  length : cached.length = min input.nodeIdxBudget input.totalNodeNum
  most : ∀ other : List Nat, other.Nodup → other.length ≤ input.nodeIdxBudget →
    ((input.windowBlocks w).map (input.hits other)).sum ≤
      ((input.windowBlocks w).map (input.hits cached)).sum

theorem cachedNid_mostHits (distinct : ∀ block, (input.nidUni block).Nodup)
    (known : ∀ block, ∀ v ∈ input.nidUni block, v < input.totalNodeNum) (w : Nat) :
    input.MostHits w (input.cachedNid w) where
  distinct := (input.cachedNid_perm w).nodup_iff.mpr (input.chosenNid_fits w).1
  length := (input.cachedNid_perm w).length_eq.trans (input.chosenNid_fits w).2.1
  most := fun _ once few => sum_hits_le distinct known w once few

theorem windowBlocks_bound {block w : Nat} (member : block ∈ input.windowBlocks w) :
    block < input.mostUsed.blockNum ∧ input.mostUsed.windowOf block = w := by
  obtain ⟨inside, window⟩ := List.mem_filter.mp member
  exact ⟨List.mem_range.mp inside, mostUsed_windowOf block ▸ of_decide_eq_true window⟩

/-- A block but the first is planned with the list of its window. -/
theorem plan_posInCache (small : input.mostUsed.right 0 < threshold) {block w : Nat}
    (member : block ∈ input.windowBlocks w) (later : 0 < block) :
    ∃ plan, input.genPartStream.node.files.plan block = some plan ∧
      plan.posInCache = (input.nidUni block).map fun v => decide (v ∈ input.cachedNid w) := by
  obtain ⟨bound, window⟩ := windowBlocks_bound member
  obtain ⟨node, -⟩ := PlanInput.genPartStream_planned small (Nat.zero_lt_of_lt bound)
  obtain ⟨counts, total, closed⟩ := input.mostUsed.genPartStream_closedWindows
  have blocks := (BlocksPlanned.initial input.mostUsed.nidUni).planWindows
    (FlushInput.chosenWindows input.mostUsed.cacheNid counts)
  rw [FlushInput.chosenWindows_blocks, Nat.zero_add, total, ← closed.node] at blocks
  obtain ⟨last, rfl⟩ := Nat.exists_eq_succ_of_ne_zero (Nat.ne_of_gt later)
  obtain ⟨cacheIdx, own, plan, -⟩ := blocks.later last bound
  obtain rfl : cacheIdx = input.cachedNid w := by
    have same := own.symm.trans (node.plannedWith _ bound)
    rw [window] at same
    exact Option.some.inj same
  rw [genPartStream_eq]
  exact ⟨_, plan, isin_false _ _⟩

/-- In every window the worker caches, for all its blocks, a list of nodes that has the most
hits, and the plans of the blocks mark them. -/
theorem cacheAt_mostHits {α β : Type} (small : input.mostUsed.right 0 < threshold)
    (hasEf : input.hasEf = true) (distinct : ∀ block, (input.nidUni block).Nodup)
    (known : ∀ block, ∀ v ∈ input.nidUni block, v < input.totalNodeNum)
    (nodeFeature : Nat → α) (edgeFeature : Nat → β) (w : Nat) :
    ∃ cached, input.MostHits w cached ∧ ∀ block ∈ input.windowBlocks w,
      (∃ cache, cacheAt input.genPartStream.node.files input.genPartStream.edge.files input.hasEf
          nodeFeature edgeFeature block = some cache ∧
        cache.nodeMap = cached ∧ cache.nodeFeat = cached.map nodeFeature) ∧
      (0 < block → ∃ plan, input.genPartStream.node.files.plan block = some plan ∧
        plan.posInCache = (input.nidUni block).map fun v => decide (v ∈ cached)) := by
  refine ⟨_, cachedNid_mostHits distinct known w, fun block member =>
    ⟨?_, plan_posInCache small member⟩⟩
  obtain ⟨bound, window⟩ := windowBlocks_bound member
  have cache := PlanInput.cacheAt_hasEf small hasEf nodeFeature edgeFeature bound
  rw [window, PlanInput.cacheAt, ← genPartStream_eq] at cache
  exact ⟨_, cache, rfl, rfl⟩

end CountInput

/-! ## Two windows -/

theorem insertionSort_descending (count : List Nat) :
    ((List.range count.length).insertionSort fun v u => count.getD u 0 ≤ count.getD v 0).Pairwise
      fun v u => count.getD u 0 ≤ count.getD v 0 := by
  let falling : Nat → Nat → Prop := fun v u => count.getD u 0 ≤ count.getD v 0
  have total : Std.Total falling := ⟨fun _ _ => Nat.le_total _ _⟩
  have transitive : IsTrans Nat falling := ⟨fun _ _ _ first second => Nat.le_trans second first⟩
  exact List.pairwise_insertionSort falling _

/-- Equal counters in the order of their positions. -/
def stableSort : DescendingSort where
  order := fun _ count =>
    (List.range count.length).insertionSort fun v u => count.getD u 0 ≤ count.getD v 0
  perm := fun _ _ => List.perm_insertionSort _ _
  descending := fun _ => insertionSort_descending

/-- Three blocks, the second of which passes the threshold, and room for one node. -/
def twoWindows : CountInput where
  hasEf := true
  batchSize := 40000000
  edgeEnd := 120000000
  nidUni := fun block => [[0, 1], [1, 2]].getD block [0, 2]
  eidUni := fun block => [block * 40000000]
  totalNodeNum := 3
  totalEdgeNum := 120000000
  nodeIdxBudget := 1
  edgeIdxBudget := 1
  nodeWindowSize := 3
  edgeWindowSize := 120000000
  nodeSort := stableSort
  edgeSort := stableSort

example : twoWindows.windowBlocks 1 = [1, 2] ∧ twoWindows.cachedNid 0 = [0] ∧
    twoWindows.cachedNid 1 = [2] := by
  decide

theorem twoWindows_nidUni (block : Nat) : (twoWindows.nidUni block).Nodup ∧
    ∀ v ∈ twoWindows.nidUni block, v < twoWindows.totalNodeNum := by
  match block with
  | 0 | 1 => decide
  | block + 2 => simp [twoWindows]

theorem CountInput.cacheAt_mostHits_twoWindows :
    ∃ cached, twoWindows.MostHits 1 cached ∧ ∀ block ∈ twoWindows.windowBlocks 1,
      (∃ cache, cacheAt twoWindows.genPartStream.node.files twoWindows.genPartStream.edge.files
          true (id : Nat → Nat) (id : Nat → Nat) block = some cache ∧
        cache.nodeMap = cached ∧ cache.nodeFeat = cached.map id) ∧
      (0 < block → ∃ plan, twoWindows.genPartStream.node.files.plan block = some plan ∧
        plan.posInCache = (twoWindows.nidUni block).map fun v => decide (v ∈ cached)) :=
  CountInput.cacheAt_mostHits (by decide) rfl (fun block => (twoWindows_nidUni block).1)
    (fun block => (twoWindows_nidUni block).2) id id 1

end Dolphin.Cache
