import Dolphin.Cache.BucketCache
import Dolphin.Cache.WindowFiles

/-!
# Runs that flush in the loop

A run does not raise as long as every window that closes has an id above 0 on each side.
The list of a block has the ids that are neither in the cache of its window nor in the
block before, and the lists of the windows that close in the loop are what the bytes
count. A stream in which many pairs of nodes meet over and over lists ten earlier edges
for every edge, which reaches 4 GiB in the second window.
-/

namespace Dolphin.Cache

open Dolphin.Store Dolphin.Tensor

/-! ## Runs that do not raise -/

/-- One of the ids is above 0. -/
def HasPositive (ids : List (List Nat)) : Prop := ∃ list ∈ ids, ∃ x ∈ list, 0 < x

/-- The maxima are those of the lists. -/
def His.Aligned (his : His) : Prop := his.max = his.ids.map HisMax.ofIds

theorem His.Aligned.appendAll {his : His} (aligned : his.Aligned) (lists : List Listed) :
    (lists.foldl His.append his).Aligned := by
  rw [foldl_append, Aligned, aligned, List.map_append]

theorem hasPositive_appendAll {lists : List Listed} (his : His)
    (positive : HasPositive (lists.map Prod.fst)) :
    HasPositive (lists.foldl His.append his).ids := by
  obtain ⟨list, member, above⟩ := positive
  rw [foldl_append]
  exact ⟨list, List.mem_append_right _ member, above⟩

/-- The largest id is found. -/
theorem His.Aligned.streamExtract {his : His} (aligned : his.Aligned)
    (positive : HasPositive his.ids) (windowSize : Nat) :
    ∃ next, his.streamExtract windowSize = some next := by
  obtain ⟨list, member, x, inList, above⟩ := positive
  have fine : ¬MaxIsInt his.ids :=
    fun raises => absurd (raises.2 list member x inList) (Nat.ne_of_gt above)
  obtain ⟨maxId, item, -⟩ := maxItem_some (List.ne_nil_of_mem member) fine
  refine ⟨{ his with saved := his.saved ++ if 0 < windowSize then his.jobs else [] }, ?_⟩
  rw [← show his.max = his.ids.map HisMax.ofIds from aligned] at item
  simp only [His.streamExtract, Option.bind_eq_bind, ← Option.bind_assoc, item, Option.bind_some]

namespace FlushInput

variable {input : FlushInput}

/-- The lists that a window would append have an id above 0 on each side. -/
structure Positive (input : FlushInput) (turn : Nat) : Prop where
  node : HasPositive ((input.nodeLists turn).map Prod.fst)
  edge : input.hasEf = true → HasPositive ((input.edgeLists turn).map Prod.fst)

/-- The maxima are those of the lists, and what counts has an id above 0 on each side. -/
structure Extracts (input : FlushInput) (state : FlushState) : Prop where
  node : state.node.Aligned
  edge : state.edge.Aligned
  positive : state.hisMemByte ≠ 0 →
    HasPositive state.node.ids ∧ (input.hasEf = true → HasPositive state.edge.ids)

theorem Extracts.extractEdges {state : FlushState} (extracts : input.Extracts state)
    (positive : input.hasEf = true → HasPositive state.edge.ids) :
    ∃ edge, input.extractEdges state.edge = some edge := by
  rw [FlushInput.extractEdges]
  split
  case isTrue both => exact extracts.edge.streamExtract (positive both.1) _
  case isFalse => exact ⟨_, rfl⟩

/-- A window with such ids is appended. -/
theorem Extracts.append {state : FlushState} {block : Nat} (extracts : input.Extracts state)
    (positive : input.Positive block) : input.Extracts (input.appendWindow block state) where
  node := extracts.node.appendAll _
  edge := extracts.edge.appendAll _
  positive := fun _ => ⟨hasPositive_appendAll _ positive.node,
    fun hasEf => hasPositive_appendAll _ (positive.edge hasEf)⟩

/-- A flush does not raise, and leaves no list behind. -/
theorem Extracts.flush {state : FlushState} (extracts : input.Extracts state)
    (full : hisMemThreshold ≤ state.hisMemByte) :
    ∃ next, input.flush state = some next ∧ input.Extracts next := by
  have counted : state.hisMemByte ≠ 0 := by
    have above : 0 < hisMemThreshold := Nat.mul_pos (by decide) (Nat.pow_pos (by decide))
    omega
  obtain ⟨nodes, edges⟩ := extracts.positive counted
  obtain ⟨node, extractNode⟩ := extracts.node.streamExtract nodes input.nodeWindowSize
  obtain ⟨edge, extractEdge⟩ := extracts.extractEdges edges
  refine ⟨⟨node.clear, if input.hasEf then edge.clear else edge, 0⟩, ?_, rfl, ?_,
    fun some_ => absurd rfl some_⟩
  · rw [FlushInput.flush, extractNode, extractEdge]
    rfl
  · cases hasEf : input.hasEf with
    | true => exact rfl
    | false =>
        have none_ : ¬(input.hasEf = true ∧ 0 < input.edgeWindowSize) := by simp [hasEf]
        rw [FlushInput.extractEdges, if_neg none_] at extractEdge
        obtain rfl := Option.some.inj extractEdge
        exact extracts.edge

/-- No turn raises. -/
theorem afterTurns_extracts (positive : ∀ block, input.Closes block → input.Positive block)
    (block : Nat) : ∃ state, input.afterTurns block = some state ∧ input.Extracts state := by
  induction block with
  | zero => exact ⟨_, rfl, rfl, rfl, fun some_ => absurd rfl some_⟩
  | succ block ih =>
      obtain ⟨state, turns, extracts⟩ := ih
      have appended : input.Extracts
          (if input.Closes block then input.appendWindow block state else state) := by
        split
        case isTrue closes => exact extracts.append (positive block closes)
        case isFalse => exact extracts
      rw [afterTurns, turns, Option.bind_some, turn]
      by_cases full : hisMemThreshold ≤
          (if input.Closes block then input.appendWindow block state else state).hisMemByte
      · obtain ⟨next, flushed, after⟩ := appended.flush full
        exact ⟨next, (if_pos full).trans flushed, after⟩
      · exact ⟨_, if_neg full, appended⟩

/-- If every window that closes has ids above 0, the run does not raise. -/
theorem genFeatures_some (positive : ∀ block, input.Closes block → input.Positive block)
    (last : input.Positive input.blockNum) : ∃ ended, input.genFeatures = some ended := by
  obtain ⟨state, turns, extracts⟩ := afterTurns_extracts positive input.blockNum
  have appended := extracts.append last
  obtain ⟨node, extractNode⟩ := appended.node.streamExtract
    (hasPositive_appendAll _ last.node) input.nodeWindowSize
  obtain ⟨edge, extractEdge⟩ := appended.extractEdges
    fun hasEf => hasPositive_appendAll _ (last.edge hasEf)
  refine ⟨{ input.appendWindow input.blockNum state with node := node, edge := edge }, ?_⟩
  rw [genFeatures, turns, Option.bind_eq_bind, Option.bind_some]
  simp only [extractNode, extractEdge, Option.bind_eq_bind, Option.bind_some]

/-! ## The lists of the blocks -/

/-- What is listed for a block: the ids that are neither in the cache of its window nor in
the block before. -/
def listedIds (input : FlushInput) (ids chosen : Nat → List Nat) : Nat → List Nat
  | 0 => ids 0
  | block + 1 => (ids (block + 1)).filter fun x =>
      x ∉ cacheList chosen (input.windowOf (block + 1)) ∧ x ∉ ids block

end FlushInput

theorem incremental_eq (cacheIdx pre cur : List Nat) :
    (blockPlan cacheIdx pre cur).incremental cur =
      cur.filter fun x => x ∉ cacheIdx ∧ x ∉ pre := by
  rw [BlockPlan.incremental, blockPlan, isin_false, isin_false, List.zipWith_map,
    List.zipWith_self, maskSelect_map_self]
  refine List.filter_congr fun x _ => ?_
  simp

namespace FlushInput

variable {input : FlushInput}

/-- A planned side has these lists. -/
theorem partFeat_eq {ids chosen : Nat → List Nat} {turn windows : Nat} {side : Side}
    (blocks : BlocksPlanned ids turn side)
    (planned : input.SidePlanned chosen windows turn side) {block : Nat} (before : block < turn) :
    side.files.partFeat block = some (input.listedIds ids chosen block) := by
  cases block with
  | zero => exact blocks.first before
  | succ block =>
      obtain ⟨cacheIdx, own, -, part⟩ := blocks.later block before
      obtain rfl := Option.some.inj (own.symm.trans (planned.plannedWith (block + 1) before))
      rw [part, incremental_eq, listedIds]

/-- When a window closes, all blocks before the turn are planned. -/
theorem closed_blocksPlanned (input : FlushInput) (turn : Nat) :
    BlocksPlanned input.nidUni turn (input.closeWindow (input.after turn)).node ∧
      (input.hasEf = true →
        BlocksPlanned input.eidUni turn (input.closeWindow (input.after turn)).edge) := by
  obtain ⟨counts, start, number, closed⟩ := input.after_closedWindows turn
  have both := closed.close start number
  have all : (counts ++ [turn - (input.after turn).bucketCacheStart]).sum = turn := by
    have early := (input.bucketHis_eq turn).2.1
    rw [List.sum_append, List.sum_singleton, start]
    omega
  refine ⟨?_, fun hasEf => ?_⟩
  · have blocks := (BlocksPlanned.initial input.nidUni).planWindows
      (chosenWindows input.cacheNid (counts ++ [turn - (input.after turn).bucketCacheStart]))
    rwa [chosenWindows_blocks, Nat.zero_add, all, ← both.node] at blocks
  · have blocks := (BlocksPlanned.initial input.eidUni).planWindows
      (chosenWindows input.cacheEid (counts ++ [turn - (input.after turn).bucketCacheStart]))
    rwa [chosenWindows_blocks, Nat.zero_add, all, ← both.edge hasEf] at blocks

/-- The lists of planned blocks, and that of their cache. -/
def PartLists (lists : List Listed) (side : FeatSide) (ids : Nat → List Nat) (blocks : List Nat) :
    Prop :=
  ∃ cached, lists = (blocks.map fun block => (ids block, SavePath.part side block)) ++ [cached]

theorem partLists_windowLists {files : SideFiles} {ids : Nat → List Nat} {blocks : List Nat}
    (part : ∀ block ∈ blocks, files.partFeat block = some (ids block)) (side : FeatSide)
    (start : Nat) : PartLists (windowLists side files start blocks) side ids blocks := by
  refine ⟨_, congrArg (· ++ _) (List.map_congr_left fun block member => ?_)⟩
  rw [part block member, Option.getD_some]

/-- The blocks of the open window. -/
theorem mem_bucketHis {turn block : Nat} :
    block ∈ (input.after turn).bucketHis ↔
      (input.after turn).bucketCacheStart ≤ block ∧ block < turn := by
  obtain ⟨blocks, early, -⟩ := input.bucketHis_eq turn
  rw [blocks, List.mem_range'_1]
  omega

theorem nodeLists_planned (small : input.right 0 < threshold) {turn : Nat} (some_ : 0 < turn) :
    PartLists (input.nodeLists turn) .node (input.listedIds input.nidUni input.cacheNid)
      (input.after turn).bucketHis := by
  refine partLists_windowLists (fun block member => ?_) .node _
  exact partFeat_eq (input.closed_blocksPlanned turn).1
    ((PlanInput.after_planned small turn).closed some_).1 (mem_bucketHis.mp member).2

theorem edgeLists_planned (small : input.right 0 < threshold) (hasEf : input.hasEf = true)
    {turn : Nat} (some_ : 0 < turn) :
    PartLists (input.edgeLists turn) .edge (input.listedIds input.eidUni input.cacheEid)
      (input.after turn).bucketHis := by
  rw [edgeLists, if_pos hasEf]
  refine partLists_windowLists (fun block member => ?_) .edge _
  exact partFeat_eq ((input.closed_blocksPlanned turn).2 hasEf)
    (((PlanInput.after_planned small turn).closed some_).2 hasEf) (mem_bucketHis.mp member).2

/-- The bytes of the edge lists of the closed windows are counted. -/
theorem edge_bytes_le (small : input.right 0 < threshold) (hasEf : input.hasEf = true)
    (turn : Nat) :
    ((List.range (input.after turn).bucketCacheStart).map fun block =>
      (input.listedIds input.eidUni input.cacheEid block).length * 4).sum ≤
        input.bytesBefore turn := by
  induction turn with
  | zero => exact Nat.zero_le _
  | succ turn ih =>
      rw [start_succ, bytesBefore]
      by_cases closes : input.Closes turn
      · have some_ : 0 < turn := by
          refine Nat.pos_of_ne_zero fun zero => ?_
          rw [zero] at closes
          exact not_closes_iff.mpr small closes
        obtain ⟨cached, lists⟩ := edgeLists_planned small hasEf some_
        obtain ⟨blocks, early, -⟩ := input.bucketHis_eq turn
        have split : List.range turn = List.range (input.after turn).bucketCacheStart ++
            List.range' (input.after turn).bucketCacheStart
              (turn - (input.after turn).bucketCacheStart) := by
          have joined := @List.range'_append_1 0 (input.after turn).bucketCacheStart
            (turn - (input.after turn).bucketCacheStart)
          rw [Nat.zero_add, Nat.add_sub_cancel' early] at joined
          rw [List.range_eq_range', List.range_eq_range', joined]
        have window : ((List.range' (input.after turn).bucketCacheStart
            (turn - (input.after turn).bucketCacheStart)).map fun block =>
              (input.listedIds input.eidUni input.cacheEid block).length * 4).sum ≤
            input.windowBytes turn := by
          rw [windowBytes, lists, blocks, List.map_append, List.sum_append, List.map_map]
          exact Nat.le_add_right_of_le (Nat.le_add_right _ _)
        rw [if_pos closes, if_pos closes, split, List.map_append, List.sum_append]
        exact Nat.add_le_add ih window
      · rw [if_neg closes, if_neg closes, Nat.add_zero]
        exact ih

end FlushInput

/-- Blocks no longer than the threshold pass it at most once each. -/
theorem PlanInput.windowNum_eq {input : PlanInput} (short : input.batchSize ≤ threshold)
    (block : Nat) : input.windowNum (block + 1) = input.right block / threshold := by
  have positive : 0 < threshold := by decide
  induction block with
  | zero =>
      have once : input.right 0 / threshold ≤ 1 := by
        refine Nat.div_le_of_le_mul ?_
        rw [PlanInput.right, Nat.zero_add, Nat.one_mul, Nat.mul_one]
        exact Nat.le_trans (Nat.min_le_right _ _) short
      rw [windowNum, windowNum]
      generalize input.right 0 / threshold = passed at once
      split <;> omega
  | succ block ih =>
      have more : input.right (block + 1) ≤ input.right block + threshold := by
        simp only [PlanInput.right, Nat.succ_mul]
        omega
      have once : input.right (block + 1) / threshold ≤ input.right block / threshold + 1 := by
        rw [← Nat.add_div_right _ positive]
        exact Nat.div_le_div_right more
      have grows : input.right block / threshold ≤ input.right (block + 1) / threshold := by
        refine Nat.div_le_div_right ?_
        simp only [PlanInput.right, Nat.succ_mul]
        omega
      rw [windowNum, ih]
      generalize input.right (block + 1) / threshold = passed at once grows
      generalize input.right block / threshold = before at once grows
      split <;> omega

/-! ## Pairs that meet again -/

/-- Blocks of 600000 edges between as many pairs of nodes, two sets of pairs in turn, and
the number of the block for a time. A root has its ten edges before, of every second
block. The cache has room for features of 172 columns in 1 GiB, and takes the nodes of
the set that the window has more often. -/
def repeatedPairs : FlushInput where
  hasEf := true
  batchSize := 600000
  edgeEnd := 160200000
  nidUni := fun block => List.range' (block % 2 * 1200000) 1200000
  eidUni := fun block => (List.range (min 10 (block / 2) + 1)).flatMap fun k =>
    List.range' ((block - 2 * (min 10 (block / 2) - k)) * 600000) 600000
  cacheNid := fun w => List.range' (w % 2 * 1200000) 390167
  cacheEid := fun _ => List.range' 0 1170503
  nodeWindowSize := 28092082
  edgeWindowSize := 28092082

namespace FlushInput

theorem mem_pairs_nidUni {block x : Nat} : x ∈ repeatedPairs.nidUni block ↔
    block % 2 * 1200000 ≤ x ∧ x < block % 2 * 1200000 + 1200000 :=
  List.mem_range'_1

/-- The edges of a block are those of ten blocks before of its own pairs, and its own. -/
theorem mem_pairs_eidUni {block x : Nat} : x ∈ repeatedPairs.eidUni block ↔
    x / 600000 % 2 = block % 2 ∧ x / 600000 ≤ block ∧ block ≤ x / 600000 + 20 := by
  simp only [repeatedPairs, List.mem_flatMap, List.mem_range, List.mem_range'_1]
  constructor
  · rintro ⟨k, bound, low, high⟩
    omega
  · rintro ⟨parity, before, near⟩
    exact ⟨min 10 (block / 2) - (block - x / 600000) / 2, by omega, by omega, by omega⟩

theorem pairs_small : repeatedPairs.right 0 < threshold := by decide

theorem mem_pairs_cacheNid {w x : Nat} (cached : x ∈ cacheList repeatedPairs.cacheNid w) :
    w % 2 * 1200000 ≤ x ∧ x < w % 2 * 1200000 + 390167 := by
  have same := @PlanInput.cacheList_perm repeatedPairs.cacheNid
    (fun _ => List.nodup_range') (fun _ => by simp [repeatedPairs]) w
  exact List.mem_range'_1.mp (same.mem_iff.mp cached)

theorem mem_pairs_cacheEid {w x : Nat} (cached : x ∈ cacheList repeatedPairs.cacheEid w) :
    x < 1170503 := by
  have same := @PlanInput.cacheList_perm repeatedPairs.cacheEid
    (fun _ => List.nodup_range') (fun _ => rfl) w
  have member := List.mem_range'_1.mp (same.mem_iff.mp cached)
  omega

/-- No node of a block is in the block before, and its last one in no cache. -/
theorem pairs_node_listed (block : Nat) : block % 2 * 1200000 + 1199999 ∈
    repeatedPairs.listedIds repeatedPairs.nidUni repeatedPairs.cacheNid block := by
  have own : block % 2 * 1200000 + 1199999 ∈ repeatedPairs.nidUni block := by
    rw [mem_pairs_nidUni]
    omega
  cases block with
  | zero => exact own
  | succ block =>
      rw [listedIds, List.mem_filter, decide_eq_true_iff]
      refine ⟨own, fun cached => ?_, fun before => ?_⟩
      · have bounds := mem_pairs_cacheNid cached
        omega
      · rw [mem_pairs_nidUni] at before
        omega

/-- No edge of a block is in the block before, and a late one in no cache. -/
theorem pairs_edge_listed {block x : Nat} (own : x ∈ repeatedPairs.eidUni block)
    (late : block = 0 ∨ 1170503 ≤ x) :
    x ∈ repeatedPairs.listedIds repeatedPairs.eidUni repeatedPairs.cacheEid block := by
  cases block with
  | zero => exact own
  | succ block =>
      rw [listedIds, List.mem_filter, decide_eq_true_iff]
      refine ⟨own, fun cached => ?_, fun before => ?_⟩
      · have bound := mem_pairs_cacheEid cached
        omega
      · rw [mem_pairs_eidUni] at own before
        omega

/-- From the block 22 on all edges are listed: eleven blocks of them. -/
theorem pairs_edge_length {block : Nat} (late : 22 ≤ block) :
    (repeatedPairs.listedIds repeatedPairs.eidUni repeatedPairs.cacheEid block).length =
      6600000 := by
  have whole : repeatedPairs.listedIds repeatedPairs.eidUni repeatedPairs.cacheEid block =
      repeatedPairs.eidUni block := by
    obtain ⟨before, rfl⟩ : ∃ before, block = before + 1 := ⟨block - 1, by omega⟩
    refine List.filter_eq_self.mpr fun x own => ?_
    have near := (mem_pairs_eidUni.mp own).2.2
    have listed := pairs_edge_listed own (Or.inr (by omega))
    exact (List.mem_filter.mp listed).2
  have ten : min 10 (block / 2) = 10 := by omega
  rw [whole]
  simp only [repeatedPairs, ten, List.length_flatMap, List.length_range', List.map_const',
    List.length_range, List.sum_replicate_nat]

/-- Every window has ids above 0 on both sides. -/
theorem pairs_positive {turn : Nat} (some_ : 0 < turn) : repeatedPairs.Positive turn := by
  obtain ⟨-, -, before⟩ := repeatedPairs.bucketHis_eq turn
  have first := mem_bucketHis.mpr
    ⟨Nat.le_refl (repeatedPairs.after turn).bucketCacheStart, before some_⟩
  obtain ⟨node, nodes⟩ := nodeLists_planned pairs_small some_
  obtain ⟨edge, edges⟩ := @edgeLists_planned repeatedPairs pairs_small rfl turn some_
  generalize (repeatedPairs.after turn).bucketCacheStart = start at first
  have own : (start + 1) * 600000 - 1 ∈ repeatedPairs.eidUni start := by
    rw [mem_pairs_eidUni]
    omega
  have edgeListed := pairs_edge_listed own (by omega)
  refine ⟨⟨_, ?_, _, pairs_node_listed start, by omega⟩, fun _ => ⟨_, ?_, _, edgeListed, by omega⟩⟩
  · rw [nodes, List.map_append, List.map_map]
    exact List.mem_append_left _ (List.mem_map.mpr ⟨start, first, rfl⟩)
  · rw [edges, List.map_append, List.map_map]
    exact List.mem_append_left _ (List.mem_map.mpr ⟨start, first, rfl⟩)

/-- The second window closes in the turn of the last block. -/
theorem pairs_closes : repeatedPairs.Closes 266 := by
  have number := (PlanInput.after_planned pairs_small 266).preThresholdNum
  rw [PlanInput.windowNum_eq (by decide)] at number
  rw [Closes, number]
  decide

theorem pairs_reached : hisMemThreshold ≤ repeatedPairs.bytesBefore repeatedPairs.blockNum := by
  have start : (repeatedPairs.after 267).bucketCacheStart = 266 := by
    rw [start_succ, if_pos pairs_closes]
  have bytes := @edge_bytes_le repeatedPairs pairs_small rfl 267
  rw [start] at bytes
  have split : List.range 266 = List.range 22 ++ List.range' 22 244 := by
    rw [List.range_eq_range', List.range_eq_range']
    exact (@List.range'_append_1 0 22 244).symm
  have late : ((List.range' 22 244).map fun block =>
      (repeatedPairs.listedIds repeatedPairs.eidUni repeatedPairs.cacheEid block).length * 4).sum =
        244 * 26400000 := by
    have same : ∀ block ∈ List.range' 22 244, (repeatedPairs.listedIds repeatedPairs.eidUni
        repeatedPairs.cacheEid block).length * 4 = 26400000 := fun block member => by
      rw [pairs_edge_length (List.mem_range'_1.mp member).1]
    rw [List.map_congr_left same]
    simp only [List.map_const', List.length_range', List.sum_replicate_nat]
  rw [split, List.map_append, List.sum_append, late] at bytes
  have blocks : repeatedPairs.blockNum = 267 := by decide
  rw [blocks]
  refine Nat.le_trans ?_ bytes
  exact Nat.le_trans (by decide) (Nat.le_add_left _ _)

end FlushInput

/-- The run ends, its lists are flushed in the loop, and a node file is written twice. -/
theorem repeatedPairs_overwritten :
    ∃ ended, repeatedPairs.genFeatures = some ended ∧
      ¬(ended.node.saved.map Prod.snd).Nodup ∧ ¬ended.Kept := by
  obtain ⟨ended, run⟩ := @FlushInput.genFeatures_some repeatedPairs
    (fun block closes => FlushInput.pairs_positive (Nat.pos_of_ne_zero fun zero =>
      FlushInput.not_closes_iff.mpr FlushInput.pairs_small (zero ▸ closes)))
    (FlushInput.pairs_positive (by decide))
  refine ⟨ended, run, FlushInput.saved_twice ?_ FlushInput.pairs_reached run,
    FlushInput.not_kept_of_flush FlushInput.pairs_reached run⟩
  exact Nat.succ_pos 28092081

end Dolphin.Cache
