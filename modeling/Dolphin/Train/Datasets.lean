import Dolphin.Buffer.Features
import Dolphin.Train.TrainLoop
import Dolphin.ValidEdge.Expiry

/-!
# Runs on a dataset

A dataset is a stream with its graph and with nodes below some number. The part files that
`gen_part_stream` saves for it have the maps of its blocks, and shared tensors with a row for
every node and every edge hold the maps of every block, whatever the negatives are. So each
dataset can be trained on.
-/

namespace Dolphin.Train

open Dolphin.Buffer Dolphin.Eid Dolphin.Graph Dolphin.Memory Dolphin.Sampler Dolphin.Tensor
  Dolphin.ValidEdge

/-- A stream with its graph, and the run that is started on it. -/
structure Dataset where
  run : TrainRun
  sized : run.Sized
  graph : StreamGraph run.stream
  numNodes : Nat
  src : ∀ v ∈ run.stream.src, v < numNodes
  dst : ∀ v ∈ run.stream.dst, v < numNodes
  negatives : ∀ block, ∀ v ∈ run.negatives block, v < numNodes
  fanNums : List Nat
  layered : fanNums ≠ []
  nonempty : 0 < run.sizes.trainEdgeEnd
  inStream : run.sizes.trainEdgeEnd ≤ run.stream.eid.length

namespace Dataset

variable (dataset : Dataset)

/-- The maps that `gen_part_stream` saves for a block. -/
def maps (block : Nat) : List Nat × List Nat :=
  genPartMaps dataset.graph.toTemporalCsr dataset.fanNums dataset.run.stream dataset.run.sizes block

/-- Their nodes. -/
def nodes (block : Nat) : IdSet := .ofList (dataset.maps block).1

/-- Their edges. -/
def edges (block : Nat) : IdSet := .ofList (dataset.maps block).2

/-- The threads run one after the other, and `cut_zombie` is off. -/
def layers : List (Nat × LayerChoice) :=
  dataset.fanNums.map fun fanNum => (fanNum, inOrder none)

theorem layers_fanouts : dataset.layers.map Prod.fst = dataset.fanNums := by
  rw [layers, List.map_map]
  exact List.map_id _

/-! ## The maps -/

theorem nodes_ids (block : Nat) : (dataset.nodes block).ids = (dataset.maps block).1 :=
  ((IdSet.ofList _).ids_eq (lastNodes_increasing _) fun _ => mem_unique.symm).symm

theorem edges_ids (block : Nat) : (dataset.edges block).ids = (dataset.maps block).2 := by
  refine ((IdSet.ofList _).ids_eq (collectEids_increasing ?_ _) fun _ => mem_unique.symm).symm
  rw [dataset.run.stream.eidRow, slice_range]
  exact List.pairwise_lt_range'

/-- The nodes of a sample are nodes of the dataset, as those of its roots are. -/
theorem node_lt {fanNums : List Nat} {roots : List Root}
    (known : ∀ root ∈ roots, root.1 < dataset.numNodes) {v : Nat}
    (member : v ∈ lastNodes (sampleLayer dataset.graph.toTemporalCsr fanNums roots)) :
    v < dataset.numNodes := by
  refine @of_mem_lastNodes _ (· < dataset.numNodes) (fun fanNum root hop reached => ?_) _ _ known
    _ member
  rcases hop_mem_stream reached with src | dst
  · exact dataset.src _ src
  · exact dataset.dst _ dst

theorem nodes_lt {block v : Nat} (member : v ∈ (dataset.nodes block).ids) :
    v < dataset.numNodes := by
  refine dataset.node_lt (fun root source => ?_) (dataset.nodes_ids block ▸ member)
  rcases List.mem_append.mp (List.of_mem_zip source).1 with src | dst
  · exact dataset.src _ (List.mem_of_mem_take (List.mem_of_mem_drop src))
  · exact dataset.dst _ (List.mem_of_mem_take (List.mem_of_mem_drop dst))

theorem edges_lt {block e : Nat} (member : e ∈ (dataset.edges block).ids) :
    e < dataset.run.stream.eid.length :=
  genPartMaps_edge_lt (dataset.edges_ids block ▸ member)

/-- A map of ids below a bound has no more entries than that. -/
theorem mergeMap_length_le {pos neg : IdSet} {bound : Nat} (inPos : ∀ v ∈ pos.ids, v < bound)
    (inNeg : ∀ v ∈ neg.ids, v < bound) : (mergeMap pos.ids neg.ids).length ≤ bound := by
  have distinct := (mergeMap_increasing pos neg).imp Nat.ne_of_lt
  have below : mergeMap pos.ids neg.ids ⊆ List.range bound := by
    intro v member
    rw [List.mem_range]
    rcases mem_mergeMap.mp member with positive | negative
    · exact inPos v positive
    · exact inNeg v negative
  exact (List.Nodup.subperm distinct below).length_le.trans_eq List.length_range

/-! ## The files of the planner -/

/-- The node files of the planner, with the windows of the caches. -/
def nodeFiles (windows : List Window) : Cache.SideFiles :=
  (Cache.planWindows (fun block => (dataset.nodes block).ids) 0 .initial
    (windows.map fun window => (window.cacheNid, window.blocks))).files

/-- The edge files. -/
def edgeFiles (windows : List Window) : Cache.SideFiles :=
  (Cache.planWindows (fun block => (dataset.edges block).ids) 0 .initial
    (windows.map fun window => (window.cacheEid, window.blocks))).files

/-! ## Training -/

variable {φ α : Type} [Inhabited φ] (config : Config) (param : MemoryParam)
  (tables : FeatTables φ (List α)) (nodeSide edgeSide : Cache.SideFiles)
  (valid : Nat → ValidEdges (List α)) (timestamp : Nat → α)

/-- A training run with the rows that the planner's files name. -/
def training : Training φ α where
  run := dataset.run
  sized := dataset.sized
  config := config
  param := param
  g := dataset.graph.toTemporalCsr
  sorted := dataset.graph.sortedRow
  fanNums := dataset.fanNums
  layered := dataset.layered
  layers := fun _ => dataset.layers
  fanouts := fun _ => dataset.layers_fanouts
  tables := tables
  parts := fun block =>
    { node := .ofFiles (fun v => tables.nodeFeats.getD v default) nodeSide (dataset.nodes block)
        block
      edge := .ofFiles (fun e => tables.edgeFeats.getD e default) edgeSide (dataset.edges block)
        block
      valid := valid block }
  timestamp := timestamp
  shareNodeNum := dataset.numNodes
  shareEdgeNum := dataset.run.stream.eid.length
  nonempty := dataset.nonempty
  inStream := dataset.inStream

/-- Its maps are those of the run, and they fit. -/
theorem training_planned :
    (dataset.training config param tables nodeSide edgeSide valid timestamp).Planned where
  nodes := dataset.nodes_ids
  edges := dataset.edges_ids
  nodeFits := by
    intro block
    refine mergeMap_length_le (fun v positive => dataset.nodes_lt positive) fun v negative => ?_
    refine dataset.node_lt (fun root source => ?_) (mem_unique.mp negative)
    exact dataset.negatives block _ (List.of_mem_zip source).1
  edgeFits := by
    intro block
    refine mergeMap_length_le (fun e positive => dataset.edges_lt positive) fun e negative => ?_
    exact preNegSample_edge_lt dataset.inStream (mem_unique.mp negative)

/-! ## Features in memory -/

variable {config param tables valid timestamp} in
/-- With all features in memory nothing else is to be prepared. -/
theorem training_held {windows : List Window}
    (covers : ∀ block, dataset.run.sizes.blockStart block < dataset.run.sizes.trainEdgeEnd →
      block < (windows.map Window.blocks).sum)
    (noValid : config.validEdge = false) (inMemory : config.useDisk = false) :
    ((dataset.training config param tables (dataset.nodeFiles windows)
      (dataset.edgeFiles windows) valid timestamp).epoch
        (dataset.training_planned ..)).FeaturesHeld windows where
  covers := covers
  node := SideStored.ofFiles _ _ _
  edge := SideStored.ofFiles _ _ _
  valid := fun enabled => absurd (noValid.symm.trans enabled) Bool.false_ne_true
  reordered := fun enabled => absurd (inMemory.symm.trans enabled) Bool.false_ne_true

end Dataset

end Dolphin.Train
