import Dolphin.Train.DatasetFiles

/-!
# Training on the files of a run

The blocks of a training run are loaded from the files that `gen_part_stream` wrote, byte by
byte, with the windows that it closed. Together with the slots of `gen_expire` and the files
of `reorder_edge` they prepare the run, so that training from the disk with the buffer is
training on the tables that the feature files hold.
-/

namespace Dolphin.Train

open Dolphin.Buffer Dolphin.Cache Dolphin.Graph Dolphin.Memory Dolphin.Store Dolphin.Tensor

/-! ## One side -/

/-- The rows of a side in the caches. -/
def sideRows (cache : CacheState (List UInt8) (List UInt8)) :
    FeatSide → Option (List (List UInt8))
  | .node => some cache.nodeFeat
  | .edge => cache.edgeFeat

/-- The blocks of a side are loaded by a worker, row by row, from the files of a run. -/
structure SideLoaded {ξ : Type} (input : FlushInput) (data : FeatData) (worker : BinStore)
    (side : FeatSide) (read : List UInt8 → ξ) (feature : Nat → ξ) (part : Nat → SidePart ξ) :
    Prop where
  ids : input.uni side = fun block => (part block).posMap.ids
  feature : ∀ v, feature v = read ((data.feats side).row v)
  plan : ∀ block plan, (input.planned side).plan block = some plan → (part block).plan = plan
  loaded : ∀ block < input.blockNum, ∃ rows,
    loadRows worker ((SavePath.part side block).loadPath data.dir) = some rows ∧
    (part block).partFeat = rows.map read
  cached : ∀ block < input.blockNum, ∃ cache rows,
    input.loadedCaches data worker block = some cache ∧ sideRows cache side = some rows ∧
    (part block).bucketCacheFeat = rows.map read

variable {input : FlushInput} {data : FeatData} {store worker : BinStore}

/-- What is served is stored. -/
theorem SideLoaded.stored {ξ : Type} {side : FeatSide} {read : List UInt8 → ξ}
    {feature : Nat → ξ} {part : Nat → SidePart ξ} (ready : input.Extractable data store)
    (served : ∀ block < input.blockNum, input.Served data worker block)
    (loaded : SideLoaded input data worker side read feature part) :
    SideStored feature (input.planned side) part := by
  have decoded : ∀ ids : List Nat, (ids.map (data.feats side).row).map read = ids.map feature := by
    intro ids
    rw [List.map_map]
    exact List.map_congr_left fun v _ => (loaded.feature v).symm
  refine ⟨loaded.plan, fun block ids named => ?_, fun block ids named => ?_⟩
  · have bound := ready.lt_blockNum side (Or.inl named)
    obtain ⟨rows, load, own⟩ := loaded.loaded block bound
    obtain ⟨_, same, found⟩ := (served block bound).part side
    obtain rfl := Option.some.inj (named.symm.trans same)
    rw [own, Option.some.inj (load.symm.trans found), decoded]
  · have bound := ready.lt_blockNum side (Or.inr named)
    obtain ⟨cache, rows, caches, sideCache, own⟩ := loaded.cached block bound
    obtain ⟨nids, eids, nodePlan, edgePlan, found⟩ := (served block bound).caches
    obtain rfl := Option.some.inj (caches.symm.trans found)
    rw [own]
    cases side with
    | node =>
        obtain rfl := Option.some.inj sideCache
        obtain rfl := Option.some.inj (named.symm.trans nodePlan)
        exact decoded ids
    | edge =>
        obtain rfl := Option.some.inj sideCache
        obtain rfl := Option.some.inj (named.symm.trans edgePlan)
        exact decoded ids

/-- Parts that hold the rows of the plan are loaded by a worker that is served. -/
theorem SideLoaded.ofFiles {ξ : Type} {side : FeatSide} {read : List UInt8 → ξ}
    {feature : Nat → ξ} {ids : Nat → IdSet}
    (served : ∀ block < input.blockNum, input.Served data worker block)
    (own : input.uni side = fun block => (ids block).ids)
    (rows : ∀ v, feature v = read ((data.feats side).row v)) :
    SideLoaded input data worker side read feature
      fun block => .ofFiles feature (input.planned side) (ids block) block := by
  have decoded : ∀ vs : List Nat, vs.map feature = (vs.map (data.feats side).row).map read := by
    intro vs
    rw [List.map_map]
    exact List.map_congr_left fun v _ => rows v
  refine ⟨own, rows, fun block plan named => ?_, fun block bound => ?_, fun block bound => ?_⟩
  · simp [SidePart.ofFiles, named]
  · obtain ⟨vs, named, load⟩ := (served block bound).part side
    exact ⟨_, load, by simp only [SidePart.ofFiles, named, Option.getD_some, decoded]⟩
  · obtain ⟨nids, eids, nodePlan, edgePlan, found⟩ := (served block bound).caches
    cases side with
    | node =>
        refine ⟨_, _, found, rfl, ?_⟩
        simp only [SidePart.ofFiles, FlushInput.planned, nodePlan, Option.getD_some]
        exact decoded nids
    | edge =>
        refine ⟨_, _, found, rfl, ?_⟩
        simp only [SidePart.ofFiles, FlushInput.planned, edgePlan, Option.getD_some]
        exact decoded eids

namespace Training

variable {φ α : Type} [Inhabited φ] {training : Training φ α}
  {graph : StreamGraph training.run.stream}

/-- A training run whose blocks come from the files of `gen_part_stream`: `readNode` and
`readEdge` read a row of bytes. -/
structure FromFiles (training : Training φ α) (graph : StreamGraph training.run.stream)
    (input : FlushInput) (data : FeatData) (store worker : BinStore)
    (readNode : List UInt8 → φ) (readEdge : List UInt8 → List α) : Prop where
  ready : input.Extractable data store
  saved : ∃ saved, input.saveFeatures data store = some saved ∧ SameDisk worker saved
  batchSize : input.batchSize = training.run.sizes.batchSize
  edgeEnd : input.edgeEnd = training.run.stream.eid.length
  node : SideLoaded input data worker .node readNode
    (fun v => training.tables.nodeFeats.getD v default) fun block => (training.parts block).node
  edge : SideLoaded input data worker .edge readEdge
    (fun e => training.tables.edgeFeats.getD e default) fun block => (training.parts block).edge
  built : training.g = graph.toTemporalCsr
  valid : training.config.validEdge = true → training.ValidEdgesPrepared graph
  reordered : training.config.useDisk = true → training.ReorderPrepared graph

variable {readNode : List UInt8 → φ} {readEdge : List UInt8 → List α}

/-- The blocks of the run are those of the planner. -/
theorem FromFiles.blocks
    (files : training.FromFiles graph input data store worker readNode readEdge) {block : Nat}
    (hasBlock : training.run.sizes.blockStart block < training.run.sizes.trainEdgeEnd) :
    block < input.blockNum := by
  have positive : 0 < input.batchSize := by
    rw [files.batchSize, training.sized.batchSize]
    exact Nat.succ_pos _
  have start : training.run.sizes.blockStart block = block * input.batchSize := by
    rw [files.batchSize, training.sized.blockStart, training.sized.batchSize]
  have inStream : block * input.batchSize < input.edgeEnd :=
    start ▸ hasBlock.trans_le (files.edgeEnd ▸ training.inStream)
  rw [PlanInput.blockNum, Nat.lt_iff_add_one_le, Nat.le_div_iff_mul_le positive, Nat.succ_mul]
  omega

/-- The files prepare the run, in the windows that were closed. -/
theorem FromFiles.prepared
    (files : training.FromFiles graph input data store worker readNode readEdge) :
    ∃ windows, training.Prepared graph windows := by
  obtain ⟨saved, run, same⟩ := files.saved
  obtain ⟨_, run', disk⟩ := files.ready.saved
  obtain rfl := Option.some.inj (run.symm.trans run')
  have served := fun block (bound : block < input.blockNum) =>
    disk.served files.ready same bound
  obtain ⟨counts, total, closed⟩ := input.genPartStream_closedWindows
  have node := files.node.stored files.ready served
  have edge := files.edge.stored files.ready served
  rw [FlushInput.planned, closed.node, show input.nidUni = _ from files.node.ids] at node
  rw [FlushInput.planned, closed.edge files.ready.hasEf, show input.eidUni = _ from files.edge.ids]
    at edge
  refine ⟨counts.zipIdx.map fun entry =>
    ⟨entry.1, input.cacheNid entry.2, input.cacheEid entry.2⟩, files.built, ?_, ?_, ?_, files.valid,
    files.reordered⟩
  · intro block hasBlock
    have bound := files.blocks hasBlock
    have blocks := List.zipIdx_map_fst 0 counts
    rw [List.map_map]
    rwa [← total, ← blocks] at bound
  · rw [List.map_map]
    exact node
  · rw [List.map_map]
    exact edge

variable [Inhabited α]

end Training

/-! ## A dataset on the disk -/

namespace Dataset

variable {φ α : Type} [Inhabited φ] {dataset : Dataset}

/-- A training run on a dataset whose features are read from its files, without valid
edges. -/
def fromDisk (features : dataset.Features) (cacheNid cacheEid : Nat → List Nat) (config : Config)
    (param : MemoryParam) (readNode : List UInt8 → φ) (readEdge : List UInt8 → List α)
    (timestamp : Nat → α) : Training φ α :=
  let input := dataset.flushInput cacheNid cacheEid
  dataset.training config param
    (dataset.tables (features.node.rows.map readNode) (features.edge.rows.map readEdge))
    (input.planned .node) (input.planned .edge) (fun _ => ⟨[], []⟩) timestamp

variable {features : dataset.Features} {cacheNid cacheEid : Nat → List Nat} {config : Config}
  {param : MemoryParam} {readNode : List UInt8 → φ} {readEdge : List UInt8 → List α}
  {timestamp : Nat → α}

theorem fromDisk_planned :
    (fromDisk features cacheNid cacheEid config param readNode readEdge timestamp).Planned :=
  dataset.training_planned ..

theorem fromDisk_nodes : let run :=
      (fromDisk features cacheNid cacheEid config param readNode readEdge timestamp).run
    (∀ v ∈ run.stream.src, v < dataset.numNodes) ∧ ∀ v ∈ run.stream.dst, v < dataset.numNodes :=
  ⟨dataset.src, dataset.dst⟩

/-- What `gen_part_stream` and `reorder_edge` leave of a dataset are the files of its run. -/
theorem fromDisk_files
    (ready : (dataset.flushInput cacheNid cacheEid).Extractable features.toFeatData
      features.toFeatData.disk)
    (few : dataset.graph.totaleid.length < 2 ^ 31) (noValid : config.validEdge = false)
    (readNode_nil : readNode [] = default) (readEdge_nil : readEdge [] = default)
    {worker saved : BinStore}
    (run : (dataset.flushInput cacheNid cacheEid).saveFeatures features.toFeatData
      features.toFeatData.disk = some saved) (same : SameDisk worker saved) :
    (fromDisk features cacheNid cacheEid config param readNode readEdge timestamp).FromFiles
      dataset.graph (dataset.flushInput cacheNid cacheEid) features.toFeatData
      features.toFeatData.disk worker readNode readEdge := by
  obtain ⟨_, run', disk⟩ := ready.saved
  obtain rfl := Option.some.inj (run.symm.trans run')
  have served := fun block (bound : block < (dataset.flushInput cacheNid cacheEid).blockNum) =>
    disk.served ready same bound
  have getD_read {ξ : Type} [Inhabited ξ] {read : List UInt8 → ξ} (nil : read [] = default)
      (rows : List (List UInt8)) (v : Nat) :
      (rows.map read).getD v default = read (rows.getD v []) := by
    rw [← nil, List.getD_map]
  exact
    { ready := ready
      saved := ⟨saved, run, same⟩
      batchSize := rfl
      edgeEnd := rfl
      node := .ofFiles served rfl (getD_read readNode_nil _)
      edge := .ofFiles served rfl (getD_read readEdge_nil _)
      built := rfl
      valid := fun enabled => absurd (noValid.symm.trans enabled) Bool.false_ne_true
      reordered := fun _ => dataset.tables_saved few _ ((List.length_map _).trans features.edgeRows) }

end Dataset

namespace Training

/-! ## Three blocks with their features on the disk -/

/-- The last byte of a row of a node. -/
def lastByte (row : List UInt8) : Nat := (row.getD 3 0).toNat

/-- The last byte of a row of an edge. -/
def lastBytes (row : List UInt8) : List Nat := (row.drop 3).map UInt8.toNat

/-- Rows of one element that end with their number. -/
def countingRows (count : Nat) : FeatRows where
  featLen := 1
  rows := (List.range count).map fun id => [0, 0, 0, UInt8.ofNat id]
  width := Nat.one_pos
  regular := List.forall_mem_map.mpr fun _ _ => rfl

theorem countingRows_length (count : Nat) : (countingRows count).rows.length = count :=
  (List.length_map _).trans List.length_range

theorem countingRows_lastBytes (count : Nat) :
    ∀ row ∈ (countingRows count).rows, (lastBytes row).length = 1 :=
  List.forall_mem_map.mpr fun _ _ => rfl

/-- The features of the three blocks. -/
def threeBlocksFeatures : threeBlocksData.Features where
  path := "d"
  label := "60000-[10]"
  node := countingRows 5
  edge := countingRows 122000
  nodeRows := countingRows_length 5
  edgeRows := (countingRows_length 122000).trans Eid.threeBlocksRun_length.symm
  plain := by decide

/-- The ids that are chosen for the only window: node 0 and the first edge. -/
def threeBlocksCache (_ : Nat) : List Nat := [0]

theorem threeBlocks_extractable :
    (threeBlocksData.flushInput threeBlocksCache threeBlocksCache).Extractable
      threeBlocksFeatures.toFeatData threeBlocksFeatures.toFeatData.disk := by
  refine Dataset.flushInput_extractable threeBlocksFeatures ?_ ?_ ?_
  · exact Eid.threeBlocksRun_length.trans_lt (by decide)
  · exact fun _ => List.forall_mem_singleton.mpr (Nat.succ_pos 4)
  · exact fun _ => List.forall_mem_singleton.mpr threeBlocksData.hasEdges

/-- A training run with the features on the disk. -/
def threeBlocksDisk : Training Nat Nat :=
  Dataset.fromDisk threeBlocksFeatures threeBlocksCache threeBlocksCache
    ⟨true, false, true, true, false⟩ ⟨1, 1, 1⟩ lastByte lastBytes id

theorem threeBlocksDisk_planned : threeBlocksDisk.Planned := Dataset.fromDisk_planned

theorem threeBlocksDisk_files {worker saved : BinStore}
    (run : (threeBlocksData.flushInput threeBlocksCache threeBlocksCache).saveFeatures
      threeBlocksFeatures.toFeatData threeBlocksFeatures.toFeatData.disk = some saved)
    (same : SameDisk worker saved) :
    threeBlocksDisk.FromFiles threeBlocksGraph
      (threeBlocksData.flushInput threeBlocksCache threeBlocksCache)
      threeBlocksFeatures.toFeatData threeBlocksFeatures.toFeatData.disk worker lastByte
      lastBytes :=
  Dataset.fromDisk_files threeBlocks_extractable threeBlocksGraph_few rfl rfl rfl run same

end Training

end Dolphin.Train
