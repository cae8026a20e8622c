import Dolphin.Buffer.EdgeReorder
import Dolphin.Buffer.Epoch
import Dolphin.Cache.BlockPlans

/-!
# The features of the buffer

A row of the buffer comes from the block's feature file, a cache slot, a read of a
negative or the buffer's own row of the previous block. Which of them, the masks of
the planner say for the positives, computed against the positives of the previous
block, and the worker for the negatives, against its whole map. Whatever the maps
and the windows are, every row ends up with the features of its own id.
-/

namespace Dolphin.Buffer

open Dolphin.Cache Dolphin.Graph Dolphin.Sampler Dolphin.Tensor Dolphin.ValidEdge

/-! ## One side -/

section Side

variable {φ : Type} [Inhabited φ] {feature : Nat → φ}

theorem disNeg_eq_filter (pos neg : List Nat) :
    disNeg pos neg = neg.filter fun v => decide (v ∉ pos) := by
  rw [disNeg, isin_true, maskSelect_map_self]

theorem mem_disNeg {pos neg : List Nat} {v : Nat} : v ∈ disNeg pos neg ↔ v ∈ neg ∧ v ∉ pos := by
  rw [disNeg_eq_filter, List.mem_filter, decide_eq_true_eq]

/-- A side that holds the features of its own ids. -/
def GpuSide.Own (feature : Nat → φ) (side : GpuSide φ) : Prop :=
  side.feats = side.map.map feature

/-- The rows of a column that are taken over from the previous block. -/
theorem GpuSide.prefetchAfter_own {previous : GpuSide φ} {result : SideResult φ}
    {taken : Nat → Bool} {row : Nat → φ} (sorted : previous.map.Pairwise (· ≤ ·))
    (own : previous.Own feature) (feats : result.feats = result.map.map row)
    (dInd : result.dInd = nonzero (result.map.map taken))
    (known : ∀ v ∈ result.map, taken v = true → v ∈ previous.map)
    (read : ∀ v ∈ result.map, taken v = false → row v = feature v) :
    (previous.prefetchAfter result).Own feature := by
  have selected : gather result.map (nonzero (result.map.map taken)) =
      result.map.filter taken := by
    rw [gather_nonzero (by simp), maskSelect_map_self]
  have fetched : previous.getFeat (gather result.map result.dInd) =
      (gather result.map (nonzero (result.map.map taken))).map feature := by
    rw [dInd, GpuSide.getFeat, own, wrapGather_findSameIndex _ sorted]
    intro v member
    rw [selected, List.mem_filter] at member
    exact known v member.1 member.2
  rw [GpuSide.Own, GpuSide.prefetchAfter, fetched, dInd, feats, indexAssign_map]
  refine List.map_congr_left fun v member => ?_
  cases kind : taken v with
  | true => simp
  | false => simpa using read v member kind

/-- What the worker hands over, as columns over the map. -/
theorem assemble_column {config : Config} {part : SidePart φ} {neg : IdSet} {partMap : List Nat}
    (posRow negRow : Nat → φ) {posNew negNew : Nat → Bool}
    (posMask : (if config.useBucket then part.plan.posInPre.map (!·)
      else part.posMap.ids.map fun _ => true) = part.posMap.ids.map posNew)
    (negMask : ddInd config (disNeg part.posMap.ids neg.ids) partMap =
      (disNeg part.posMap.ids neg.ids).map negNew) :
    let result := assemble config part neg partMap (part.posMap.ids.map posRow)
      ((disNeg part.posMap.ids neg.ids).map negRow)
    result.feats = result.map.map (fun v => if v ∈ part.posMap.ids then posRow v else negRow v) ∧
      result.dInd = nonzero (result.map.map fun v =>
        !(if v ∈ part.posMap.ids then posNew v else negNew v)) := by
  -- a column over the positives followed by one over the negatives is one column
  have joined : ∀ {β : Type} (f g : Nat → β),
      part.posMap.ids.map f ++ (disNeg part.posMap.ids neg.ids).map g =
        (part.posMap.ids ++ disNeg part.posMap.ids neg.ids).map fun v =>
          if v ∈ part.posMap.ids then f v else g v := by
    intro β f g
    rw [List.map_append]
    congr 1
    · exact List.map_congr_left fun v member => (if_pos member).symm
    · exact List.map_congr_left fun v member => (if_neg (mem_disNeg.mp member).2).symm
  simp only [assemble, posMask, negMask, joined, gather_argsort_map, List.map_map]
  exact ⟨trivial, rfl⟩

/-! ### Reads -/

/-- Whether a negative is read although the previous map may have it. -/
def newNeg (config : Config) (partMap : List Nat) (v : Nat) : Bool :=
  !config.dataIncre || decide (v ∉ partMap)

omit [Inhabited φ] in
theorem ddInd_eq (config : Config) (dis partMap : List Nat) :
    ddInd config dis partMap = dis.map (newNeg config partMap) := by
  rw [ddInd, isin_true]
  cases incre : config.dataIncre with
  | true => exact List.map_congr_left fun v _ => by simp [newNeg, incre]
  | false => exact List.map_congr_left fun v _ => by simp [newNeg, incre]

/-- The rows of the marked ids are read. -/
theorem readMarked_column {ids : List Nat} {marked : Nat → Bool} {select : List Nat → List φ}
    (own : select (ids.filter marked) = (ids.filter marked).map feature) :
    readMarked ids (ids.map marked) select =
      ids.map fun v => if marked v then feature v else default := by
  rw [readMarked, maskSelect_map_self, own, maskAssign_map]

/-- Positives under the plan of their block. -/
theorem posFeats_column {config : Config} {part : SidePart φ} {cacheIdx pre : List Nat}
    (bucket : config.useBucket = true)
    (plan : part.plan = blockPlan cacheIdx pre part.posMap.ids)
    (partFeat : part.partFeat = (part.plan.incremental part.posMap.ids).map feature)
    (cacheFeat : part.bucketCacheFeat = cacheIdx.map feature) (direct : List φ) :
    posFeats config part direct = part.posMap.ids.map fun v =>
      if v ∈ cacheIdx then feature v else if v ∈ pre then default else feature v := by
  have inCache : part.plan.posInCache = part.posMap.ids.map fun v => decide (v ∈ cacheIdx) := by
    rw [plan]
    exact isin_false _ _
  have inPre : part.plan.posInPre = part.posMap.ids.map fun v => decide (v ∈ pre) := by
    rw [plan]
    exact isin_false _ _
  have indices : part.plan.posCacheIndices =
      findIndices (part.posMap.ids.filter fun v => decide (v ∈ cacheIdx)) cacheIdx := by
    rw [plan, blockPlan, isin_false, maskSelect_map_self]
  have incremental : part.plan.incremental part.posMap.ids =
      part.posMap.ids.filter fun v => !decide (v ∈ pre) && !decide (v ∈ cacheIdx) := by
    rw [BlockPlan.incremental, inCache, inPre, List.zipWith_map, List.zipWith_self,
      maskSelect_map_self]
    exact List.filter_congr fun v _ => Bool.and_comm _ _
  have cached : gather part.bucketCacheFeat part.plan.posCacheIndices =
      (part.posMap.ids.filter fun v => decide (v ∈ cacheIdx)).map feature := by
    rw [cacheFeat, indices]
    exact gather_findIndices feature fun v member => by simpa using (List.mem_filter.mp member).2
  simp only [posFeats, bucket, if_true, inCache, inPre, List.zipWith_map, List.zipWith_self,
    partFeat, incremental, maskAssign_map, cached]
  refine List.map_congr_left fun v _ => ?_
  by_cases inCache : v ∈ cacheIdx
  · simp [inCache]
  · by_cases inPre : v ∈ pre <;> simp [inCache, inPre]

/-- The rows of the negatives that are read from a table. -/
theorem readMarked_neg (config : Config) (table : List φ) (dis previous : List Nat) :
    ∃ negRow : Nat → φ,
      readMarked dis (ddInd config dis previous) (gather table) = dis.map negRow ∧
      ∀ v, newNeg config previous v = true → negRow v = table.getD v default := by
  rw [ddInd_eq]
  exact ⟨_, readMarked_column rfl, fun v new => if_pos new⟩

/-! ### The rows of a side -/

/-- Where the positives of a block come from. With buckets the previous block's
positives, against which the block was planned, must be in the buffer. -/
structure PosStored (feature : Nat → φ) (config : Config) (part : SidePart φ)
    (previous : List Nat) (direct : List φ) : Prop where
  planned : config.useBucket = true → ∃ cacheIdx pre,
    part.plan = blockPlan cacheIdx pre part.posMap.ids ∧
    part.partFeat = (part.plan.incremental part.posMap.ids).map feature ∧
    part.bucketCacheFeat = cacheIdx.map feature ∧ ∀ v ∈ pre, v ∈ previous
  direct : config.useBucket = false → direct = part.posMap.ids.map feature

/-- After `prefetch_after` every row of a side is the one of its id. -/
theorem prefetched_own {config : Config} {part : SidePart φ} {neg : IdSet}
    {previous : GpuSide φ} {direct negFeats : List φ} {negRow : Nat → φ}
    (increasing : previous.map.Pairwise (· < ·)) (own : previous.Own feature)
    (stored : PosStored feature config part previous.map direct)
    (negColumn : negFeats = (disNeg part.posMap.ids neg.ids).map negRow)
    (read : ∀ v, newNeg config previous.map v = true → negRow v = feature v) :
    (previous.prefetchAfter (assemble config part neg previous.map
      (posFeats config part direct) negFeats)).Own feature := by
  -- the positives of the plan's previous block are taken from the buffer
  obtain ⟨posRow, posNew, feats, mask, known, fresh⟩ : ∃ (posRow : Nat → φ) (posNew : Nat → Bool),
      posFeats config part direct = part.posMap.ids.map posRow ∧
      (if config.useBucket then part.plan.posInPre.map (!·)
        else part.posMap.ids.map fun _ => true) = part.posMap.ids.map posNew ∧
      (∀ v, posNew v = false → v ∈ previous.map) ∧
      ∀ v, posNew v = true → posRow v = feature v := by
    cases bucket : config.useBucket with
    | true =>
        obtain ⟨cacheIdx, pre, plan, partFeat, cacheFeat, contained⟩ := stored.planned bucket
        refine ⟨_, fun v => decide (v ∉ pre),
          posFeats_column bucket plan partFeat cacheFeat direct, ?_, ?_, ?_⟩
        · rw [if_pos rfl, plan]
          simp [blockPlan, isin_false]
        · intro v old
          exact contained v (by simpa using old)
        · intro v new
          have outside : v ∉ pre := by simpa using new
          simp [outside]
    | false =>
        refine ⟨feature, fun _ => true, ?_, by simp, by simp, fun _ _ => rfl⟩
        simpa [posFeats, bucket] using stored.direct bucket
  obtain ⟨column, dInd⟩ := assemble_column posRow negRow mask
    (ddInd_eq config (disNeg part.posMap.ids neg.ids) previous.map)
  rw [feats, negColumn]
  refine GpuSide.prefetchAfter_own (increasing.imp Nat.le_of_lt) own column dInd ?_ ?_
  · intro v _ taken
    by_cases pos : v ∈ part.posMap.ids
    · exact known v (by simpa [pos] using taken)
    · simp only [pos, if_false, newNeg] at taken
      simpa using (by simpa using taken : config.dataIncre = true ∧ v ∈ previous.map).2
  · intro v _ left
    by_cases pos : v ∈ part.posMap.ids
    · rw [if_pos pos]
      exact fresh v (by simpa [pos] using left)
    · rw [if_neg pos]
      exact read v (by simpa [pos] using left)

/-- After `analyze` every row of a side is the one of its id. -/
theorem analyzed_own {part : SidePart φ} {neg : IdSet} {select : List Nat → List φ}
    (stored : part.partFeat = part.posMap.ids.map feature)
    (read : ∀ ids, (∀ v ∈ ids, v ∈ neg.ids) → select ids = ids.map feature) :
    (analyzeSide part neg select).Own feature := by
  have own : select (part.load.disNeg neg) = (part.load.disNeg neg).map feature := by
    refine read _ fun v member => ?_
    exact mem_sort.mp ((maskSelect_sublist _ _).subset member)
  have loaded : part.load.feats = part.load.map.map feature := stored
  rw [analyzeSide, own, GpuSide.Own, GpuSide.merge, loaded, ← List.map_append,
    gather_argsort_map]

end Side

/-! ## The epoch -/

/-- A cache window: its number of blocks and the ids chosen for it. -/
structure Window where
  blocks : Nat
  cacheNid : List Nat
  cacheEid : List Nat

/-- The files of a side have the features of the ids they are written for, and the
cache of a block those of the list the block was planned with. -/
structure SideStored {φ : Type} (feature : Nat → φ) (files : SideFiles)
    (part : Nat → SidePart φ) : Prop where
  plan : ∀ block plan, files.plan block = some plan → (part block).plan = plan
  partFeat : ∀ block ids, files.partFeat block = some ids →
    (part block).partFeat = ids.map feature
  cacheFeat : ∀ block ids, files.plannedWith block = some ids →
    (part block).bucketCacheFeat = ids.map feature

/-- The rows that the worker has for the positives of a block. -/
theorem SideStored.rows {φ : Type} {feature : Nat → φ} {part : Nat → SidePart φ}
    {windows : List (List Nat × Nat)}
    (stored : SideStored feature
      (planWindows (fun block => (part block).posMap.ids) 0 .initial windows).files part) :
    (0 < (windows.map Prod.snd).sum →
      (part 0).partFeat = (part 0).posMap.ids.map feature) ∧
    ∀ block, block + 1 < (windows.map Prod.snd).sum → ∃ cacheIdx,
      (part (block + 1)).plan =
        blockPlan cacheIdx (part block).posMap.ids (part (block + 1)).posMap.ids ∧
      (part (block + 1)).partFeat =
        ((part (block + 1)).plan.incremental (part (block + 1)).posMap.ids).map feature ∧
      (part (block + 1)).bucketCacheFeat = cacheIdx.map feature := by
  have planned := (BlocksPlanned.initial fun block => (part block).posMap.ids).planWindows windows
  rw [Nat.zero_add] at planned
  refine ⟨fun positive => stored.partFeat 0 _ (planned.first positive), fun block bound => ?_⟩
  obtain ⟨cacheIdx, plannedWith, plan, partFeat⟩ := planned.later block bound
  have own := stored.plan _ _ plan
  refine ⟨cacheIdx, own, ?_, stored.cacheFeat _ _ plannedWith⟩
  rw [own]
  exact stored.partFeat _ _ partFeat

namespace Epoch

variable {φ ψ α : Type} [Inhabited φ] [Inhabited ψ] [Inhabited α] (epoch : Epoch φ ψ α)

/-- The feature of a node: its row of the table. -/
def nodeFeature (v : Nat) : φ := epoch.tables.nodeFeats.getD v default

/-- The feature of an edge: its row of the table. -/
def edgeFeature (e : Nat) : ψ := epoch.tables.edgeFeats.getD e default

/-- What the files and caches of an epoch hold, planned in some cache windows. -/
structure FeaturesHeld (windows : List Window) : Prop where
  covers : ∀ block, epoch.HasBlock block → block < (windows.map Window.blocks).sum
  node : SideStored epoch.nodeFeature
    (planWindows (fun block => (epoch.parts block).node.posMap.ids) 0 .initial
      (windows.map fun window => (window.cacheNid, window.blocks))).files
    fun block => (epoch.parts block).node
  edge : SideStored epoch.edgeFeature
    (planWindows (fun block => (epoch.parts block).edge.posMap.ids) 0 .initial
      (windows.map fun window => (window.cacheEid, window.blocks))).files
    fun block => (epoch.parts block).edge
  /-- The valid edges have the features of the edges that are read from them. -/
  valid : epoch.config.validEdge = true → ∀ block, epoch.HasBlock block → ∀ e,
    e ∈ (epoch.neg block).eids.ids ∨
      epoch.config.useBucket = false ∧ e ∈ (epoch.parts block).edge.posMap.ids →
    getEfValid (epoch.parts block).valid [e] = [epoch.edgeFeature e]
  /-- So has the reordered file. -/
  reordered : epoch.config.useDisk = true → ∀ block, epoch.HasBlock block →
    ∀ e ∈ (epoch.neg block).eids.ids,
      epoch.tables.edgeFeaturesReorder.getD (epoch.tables.edgeReorderMap.getD e default) default =
        epoch.edgeFeature e

variable {epoch}

section Stored

variable {windows : List Window}

omit [Inhabited α] in
/-- Reads from the valid edges. -/
theorem FeaturesHeld.getEfValid_own (stored : epoch.FeaturesHeld windows)
    (valid : epoch.config.validEdge = true) {block : Nat} (hasBlock : epoch.HasBlock block)
    {eids : List Nat}
    (members : ∀ e ∈ eids, e ∈ (epoch.neg block).eids.ids ∨
      epoch.config.useBucket = false ∧ e ∈ (epoch.parts block).edge.posMap.ids) :
    getEfValid (epoch.parts block).valid eids = eids.map epoch.edgeFeature := by
  rw [getEfValid, gather, gather, List.map_map]
  refine List.map_congr_left fun e member => ?_
  have own := stored.valid valid block hasBlock e (members e member)
  simpa [getEfValid, gather] using own

omit [Inhabited α] in
/-- Reads of edges. -/
theorem FeaturesHeld.selectEdge_own (stored : epoch.FeaturesHeld windows) {block : Nat}
    (hasBlock : epoch.HasBlock block) {eids : List Nat}
    (members : ∀ e ∈ eids, e ∈ (epoch.neg block).eids.ids ∨
      epoch.config.useBucket = false ∧ e ∈ (epoch.parts block).edge.posMap.ids) :
    selectEdge epoch.config epoch.tables (epoch.parts block).valid eids =
      eids.map epoch.edgeFeature := by
  rw [selectEdge]
  split
  case isTrue valid => exact stored.getEfValid_own valid hasBlock members
  case isFalse => rfl

omit [Inhabited α] in
/-- The rows of the negative edges, whichever way they are read. -/
theorem FeaturesHeld.negEdgeFeats_column (stored : epoch.FeaturesHeld windows) {block : Nat}
    (hasBlock : epoch.HasBlock block) (previous : List Nat) :
    let dis := disNeg (epoch.parts block).edge.posMap.ids (epoch.neg block).eids.ids
    ∃ negRow : Nat → ψ,
      negEdgeFeats epoch.config epoch.tables (epoch.parts block).valid dis
        (ddInd epoch.config dis previous) = dis.map negRow ∧
      ∀ e, newNeg epoch.config previous e = true → negRow e = epoch.edgeFeature e := by
  intro dis
  have plain := readMarked_neg epoch.config epoch.tables.edgeFeats dis previous
  by_cases valid : epoch.config.validEdge = true
  · rw [negEdgeFeats, if_pos valid]
    exact ⟨_, stored.getEfValid_own valid hasBlock fun e member => Or.inl (mem_disNeg.mp member).1,
      fun _ _ => rfl⟩
  by_cases disk : epoch.config.useDisk = true
  · have aligned : dis.length = (ddInd epoch.config dis previous).length := by
      rw [ddInd_eq, List.length_map]
    have order : (argsort (gather epoch.tables.edgeReorderMap
        (maskSelect (ddInd epoch.config dis previous) dis))).Perm
          (List.range (maskSelect (ddInd epoch.config dis previous) dis).length) := by
      have perm := argsort_perm (gather epoch.tables.edgeReorderMap
        (maskSelect (ddInd epoch.config dis previous) dis))
      rwa [gather_length] at perm
    rw [negEdgeFeats_eq _ _ _ _ disk, reorderedRead_eq aligned (by rw [List.length_map, aligned])
      order fun e member => ?_]
    · exact plain
    · have own := stored.reordered disk block hasBlock e (mem_disNeg.mp member).1
      have position : (epoch.tables.edgeReorderMap.map Int.ofNat).getD e default =
          Int.ofNat (epoch.tables.edgeReorderMap.getD e default) := by
        rw [List.getD_eq_getElem?_getD, List.getD_eq_getElem?_getD, List.getElem?_map]
        exact Option.getD_map Int.ofNat default _
      rw [position, Int.ofNat_eq_natCast, Int.toNat_natCast]
      exact own
  · rw [negEdgeFeats, if_neg valid, if_neg disk]
    exact plain

/-- The buffer of the first block. -/
theorem FeaturesHeld.first (stored : epoch.FeaturesHeld windows)
    (hasFirst : epoch.HasBlock 0) :
    epoch.firstGpu.node.Own epoch.nodeFeature ∧ epoch.firstGpu.edge.Own epoch.edgeFeature := by
  have positive := stored.covers 0 hasFirst
  constructor
  · refine analyzed_own (stored.node.rows.1 ?_) fun ids _ => rfl
    simpa [Function.comp_def] using positive
  · refine analyzed_own (stored.edge.rows.1 ?_) fun ids members =>
      stored.selectEdge_own hasFirst fun e member => Or.inl (members e member)
    simpa [Function.comp_def] using positive

/-- The buffer of the next block. -/
theorem FeaturesHeld.next (stored : epoch.FeaturesHeld windows) {block : Nat}
    (hasNext : epoch.HasBlock (block + 1)) {state : BufferState φ ψ α} {gpu : Gpu φ ψ α}
    {info : MemoryInfo α} (loaded : epoch.Loaded block state gpu info)
    (node : gpu.node.Own epoch.nodeFeature) (edge : gpu.edge.Own epoch.edgeFeature) :
    (epoch.nextGpu block state gpu info).node.Own epoch.nodeFeature ∧
      (epoch.nextGpu block state gpu info).edge.Own epoch.edgeFeature := by
  have bound := stored.covers (block + 1) hasNext
  constructor
  · have increasing : gpu.node.map.Pairwise (· < ·) := by
      rw [loaded.nodeMap]
      exact mergeMap_increasing _ _
    obtain ⟨negRow, column, read⟩ := readMarked_neg epoch.config epoch.tables.nodeFeats
      (disNeg (epoch.parts (block + 1)).node.posMap.ids (epoch.neg (block + 1)).nodes.ids)
      gpu.node.map
    refine prefetched_own increasing node ⟨fun _ => ?_, fun _ => rfl⟩ column read
    obtain ⟨cacheIdx, plan, partFeat, cacheFeat⟩ := stored.node.rows.2 block
      (by simpa [Function.comp_def] using bound)
    refine ⟨cacheIdx, _, plan, partFeat, cacheFeat, fun v member => ?_⟩
    rw [loaded.nodeMap]
    exact mem_mergeMap.mpr (Or.inl member)
  · have increasing : gpu.edge.map.Pairwise (· < ·) := by
      rw [loaded.edgeMap]
      exact mergeMap_increasing _ _
    obtain ⟨negRow, column, read⟩ := stored.negEdgeFeats_column hasNext gpu.edge.map
    refine prefetched_own increasing edge ⟨fun _ => ?_, fun direct => ?_⟩ column read
    · obtain ⟨cacheIdx, plan, partFeat, cacheFeat⟩ := stored.edge.rows.2 block
        (by simpa [Function.comp_def] using bound)
      refine ⟨cacheIdx, _, plan, partFeat, cacheFeat, fun v member => ?_⟩
      rw [loaded.edgeMap]
      exact mem_mergeMap.mpr (Or.inl member)
    · exact stored.selectEdge_own hasNext fun e member => Or.inr ⟨direct, member⟩

/-- The features of the buffer whenever `run_batch` returns. -/
theorem FeaturesHeld.loaded (stored : epoch.FeaturesHeld windows) {i : Nat}
    (batch : epoch.HasBatch i) :
    ∃ gpu info, epoch.Loaded (i / epoch.sizes.batchNum) (epoch.started i) gpu info ∧
      gpu.node.Own epoch.nodeFeature ∧ gpu.edge.Own epoch.edgeFeature := by
  refine epoch.started_induction
    (motive := fun i state => ∃ gpu info,
      epoch.Loaded (i / epoch.sizes.batchNum) state gpu info ∧
        gpu.node.Own epoch.nodeFeature ∧ gpu.edge.Own epoch.edgeFeature) ?_ ?_ ?_ batch
  · have hasFirst : epoch.HasBlock 0 := batch.hasBlock.mono (Nat.zero_le _)
    refine ⟨_, none, ?_, stored.first hasFirst⟩
    simpa using epoch.loaded_first
  · rintro i _ same ⟨gpu, info, loaded, node, edge⟩
    rw [same]
    refine ⟨_, _, loaded.updates _, ?_, ?_⟩
    · rwa [Gpu.updates_node]
    · rwa [Gpu.updates_edge]
  · rintro i later opens ⟨gpu, info, loaded, node, edge⟩
    have hasNext : epoch.HasBlock (i / epoch.sizes.batchNum + 1) := by
      rw [← opens]
      exact later.hasBlock
    have last := loaded.updates (epoch.updates i)
    rw [← Gpu.updates_node gpu (epoch.updates i)] at node
    rw [← Gpu.updates_edge gpu (epoch.updates i)] at edge
    rw [opens]
    exact ⟨_, _, (last.trigger hasNext).1, stored.next hasNext last node edge⟩

end Stored

/-- A side of the buffer for a block: its map has the positives and the negatives in
increasing order, its rows the features of the map's ids. -/
structure Complete {φ : Type} (feature : Nat → φ) (part : SidePart φ) (neg : IdSet)
    (side : GpuSide φ) : Prop where
  increasing : side.map.Pairwise (· < ·)
  members : ∀ v, v ∈ side.map ↔ v ∈ part.posMap.ids ∨ v ∈ neg.ids
  feats : side.feats = side.map.map feature

end Epoch

/-! ## A run through all sources -/

/-- The part of a side that the planner's files leave for a block. -/
def SidePart.ofFiles {φ : Type} (feature : Nat → φ) (files : SideFiles) (posMap : IdSet)
    (block : Nat) : SidePart φ where
  posMap := posMap
  plan := (files.plan block).getD ⟨[], [], []⟩
  partFeat := ((files.partFeat block).getD []).map feature
  bucketCacheFeat := ((files.plannedWith block).getD []).map feature

theorem SideStored.ofFiles {φ : Type} (feature : Nat → φ) (files : SideFiles)
    (posMap : Nat → IdSet) :
    SideStored feature files fun block => .ofFiles feature files (posMap block) block where
  plan := fun block plan written => by simp [SidePart.ofFiles, written]
  partFeat := fun block ids written => by simp [SidePart.ofFiles, written]
  cacheFeat := fun block ids written => by simp [SidePart.ofFiles, written]

/-- The positives of two blocks that share an id. -/
def sharedPos (block : Nat) : IdSet := if block = 0 then .ofList [0, 1] else .ofList [1, 2, 3]

/-- The negatives of the two blocks. -/
def sharedNeg (block : Nat) : IdSet := if block = 0 then .ofList [4] else .ofList [4, 5]

/-- The files of the two blocks, planned in one window that caches id 3. -/
def sharedFiles : SideFiles :=
  (planWindows (fun block => (sharedPos block).ids) 0 .initial [([3], 2)]).files

/-- With the edge features on disk, in another order there. In the second block id 1 comes
from the block before, 2 from the file, 3 from the cache, 4 from the negatives of the block
before and 5 from the table. -/
def allSources : Epoch Nat Nat Nat where
  config := ⟨true, false, true, true, false⟩
  param := ⟨1, 1, 0⟩
  sizes := ⟨2, 2, 4⟩
  src := [0, 1, 2, 1]
  dst := [1, 0, 3, 2]
  tables := ⟨[50, 51, 52, 53, 54, 55], [60, 61, 62, 63, 64, 65], [3, 1, 4, 0, 5, 2],
    [63, 61, 65, 60, 62, 64]⟩
  parts := fun block =>
    { node := .ofFiles (fun v => [50, 51, 52, 53, 54, 55].getD v default) sharedFiles
        (sharedPos block) block
      edge := .ofFiles (fun e => [60, 61, 62, 63, 64, 65].getD e default) sharedFiles
        (sharedPos block) block
      valid := ⟨[], []⟩ }
  neg := fun block => ⟨sharedNeg block, sharedNeg block⟩
  updates := fun _ => []
  shareNodeNum := 5
  shareEdgeNum := 5
  sized := by decide
  nonempty := by decide
  divides := by decide
  nodeFits := fun block => by
    simp only [SidePart.ofFiles, sharedPos, sharedNeg]
    split
    · decide
    · decide
  edgeFits := fun block => by
    simp only [SidePart.ofFiles, sharedPos, sharedNeg]
    split
    · decide
    · decide

theorem allSources_held : allSources.FeaturesHeld [⟨2, [3], [3]⟩] where
  covers := by
    intro block hasBlock
    have start : block * 1 * 2 < 4 := hasBlock
    change block < 2
    omega
  node := SideStored.ofFiles _ _ _
  edge := SideStored.ofFiles _ _ _
  valid := fun enabled => absurd enabled (by decide)
  reordered := by
    intro _ block _ e negative
    have known : e = 4 ∨ e = 5 := by
      change e ∈ (sharedNeg block).ids at negative
      rw [sharedNeg] at negative
      split at negative
      case isTrue => exact Or.inl (List.mem_singleton.mp (mem_unique.mp negative))
      case isFalse => simpa using mem_unique.mp negative
    rcases known with rfl | rfl <;> rfl

example : (allSources.during 1 0).gpu.map (fun gpu => (gpu.node, gpu.edge)) =
    some (⟨[1, 2, 3, 4, 5], [51, 52, 53, 54, 55]⟩, ⟨[1, 2, 3, 4, 5], [61, 62, 63, 64, 65]⟩) := by
  decide

end Dolphin.Buffer
