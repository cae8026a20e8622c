import Dolphin.Cache.GenPartStream
import Dolphin.Memory.DiskMemory
import Dolphin.Semantics.Table
import Dolphin.ValidEdge.Slots

/-!
# The prefetch worker

`pre_fetch` gathers what the GPU needs for one block: the map of its positives and
newly reached negatives, the features that are not on the GPU yet, the positions
that are, and the memory rows of the nodes that the previous block did not have.
Nodes and edges are treated alike up to where rows are read from, and are one
definition here.

The parts of a block on disk, the bucket caches and the valid edges are given by
the block: `pre_fetch` brings both caches up to date before it reads them. Both
feature tables and the node memory are present, and the memory is kept in tables
(`memory_disk` off). A memory row stands for the four tensors. `edge_reorder` is
on, as by default: without it the worker reads the path `edge_features_path`,
which nothing sets. Zero rows are `default`.
-/

namespace Dolphin.Buffer

open Dolphin.Cache Dolphin.Graph Dolphin.Memory Dolphin.Semantics Dolphin.Tensor Dolphin.ValidEdge

/-- The switches of `GlobalConfig` that the loader reads. -/
structure Config where
  useBucket : Bool
  useValidEdge : Bool
  useDisk : Bool
  dataIncre : Bool
  modelEval : Bool
  deriving DecidableEq

/-- `Pre_fetch.use_valid_edge`, which is turned off when the features are on disk. -/
def Config.validEdge (config : Config) : Bool := config.useValidEdge && !config.useDisk

/-- The feature tables, in memory or on disk. -/
structure FeatTables (φ ψ : Type) where
  nodeFeats : List φ
  edgeFeats : List ψ
  edgeReorderMap : List Nat
  edgeFeaturesReorder : List ψ

/-- What the worker has for one side of a block. -/
structure SidePart (φ : Type) where
  /-- `part{block}_{node,edge}_map`. -/
  posMap : IdSet
  plan : BlockPlan
  /-- The rows of the block's feature file. -/
  partFeat : List φ
  bucketCacheFeat : List φ

/-- What the worker has for a block; `valid` is the state of the valid edges after
`update_valid_edge(block_num)`. -/
structure BlockPart (φ ψ : Type) where
  node : SidePart φ
  edge : SidePart ψ
  valid : ValidEdges ψ

/-- The nodes and edges that `pre_neg_sample` returns for a block. -/
structure NegInfo where
  nodes : IdSet
  eids : IdSet

/-- A memory row that nothing has been written to. -/
instance {α : Type} [Inhabited α] : Inhabited (NodeMem α) := ⟨⟨[], default, [], []⟩⟩

/-- Nodes and their memory rows, on their way to the host tables; `none` stands for a
`memory_info` without rows. -/
abbrev MemoryInfo (α : Type) := Option (List Nat × List (NodeMem α))

section Sides

variable {φ : Type} [Inhabited φ]

/-- `dis_neg_nodes` and `dis_neg_eids`: the negatives that are not positives. -/
def disNeg (pos neg : List Nat) : List Nat := maskSelect (isin neg pos true) neg

/-- `node_dd_ind` and `edge_dd_ind`: which of them the previous map does not have. -/
def ddInd (config : Config) (disNeg partMap : List Nat) : List Bool :=
  if config.dataIncre then isin disNeg partMap true else disNeg.map fun _ => true

/-- Zero rows of which the marked ones are read. -/
def readMarked (ids : List Nat) (marked : List Bool) (select : List Nat → List φ) : List φ :=
  maskAssign (ids.map fun _ => default) marked (select (maskSelect marked ids))

/-- `pos_node_feats` and `pos_edge_feats`; `direct` are the rows read without
buckets. -/
def posFeats (config : Config) (part : SidePart φ) (direct : List φ) : List φ :=
  if config.useBucket then
    let fresh := List.zipWith (fun inPre inCache => !inPre && !inCache) part.plan.posInPre
      part.plan.posInCache
    let loaded := maskAssign (part.posMap.ids.map fun _ => default) fresh part.partFeat
    maskAssign loaded part.plan.posInCache
      (gather part.bucketCacheFeat part.plan.posCacheIndices)
  else direct

/-- One side of what the worker hands over. -/
structure SideResult (φ : Type) where
  map : List Nat
  feats : List φ
  /-- `node_d_map` and `edge_d_map`: the rows that are taken from the GPU. -/
  dInd : List Nat
  deriving DecidableEq

/-- The map of a side with its features in the order of the map. -/
def assemble (config : Config) (part : SidePart φ) (neg : IdSet) (partMap : List Nat)
    (posFeats negFeats : List φ) : SideResult φ :=
  let dis := disNeg part.posMap.ids neg.ids
  let posNew := if config.useBucket then part.plan.posInPre.map (!·)
    else part.posMap.ids.map fun _ => true
  let dMap := posNew ++ ddInd config dis partMap
  let indices := argsort (part.posMap.ids ++ dis)
  { map := sort (part.posMap.ids ++ dis)
    feats := gather (posFeats ++ negFeats) indices
    dInd := nonzero ((gather dMap indices).map (!·)) }

end Sides

section Reads

variable {φ ψ : Type} [Inhabited φ] [Inhabited ψ]

/-- `self_select('edge_feats', indices)`. -/
def selectEdge (config : Config) (tables : FeatTables φ ψ) (valid : ValidEdges ψ)
    (indices : List Nat) : List ψ :=
  if config.validEdge then getEfValid valid indices else gather tables.edgeFeats indices

/-- `dis_neg_eids_feat`. On disk the rows are read in the order of the reordered
file and scattered back. -/
def negEdgeFeats (config : Config) (tables : FeatTables φ ψ) (valid : ValidEdges ψ)
    (dis : List Nat) (dd : List Bool) : List ψ :=
  if config.validEdge then getEfValid valid dis
  else if config.useDisk then
    let reorderInd := gather tables.edgeReorderMap (maskSelect dd dis)
    indexAssign (dis.map fun _ => default) (gather (nonzero dd) (argsort reorderInd))
      (gather tables.edgeFeaturesReorder (sort reorderInd))
  else readMarked dis dd (gather tables.edgeFeats)

/-- The node side of a block. -/
def preFetchNode (config : Config) (tables : FeatTables φ ψ) (part : SidePart φ) (neg : IdSet)
    (partMap : List Nat) : SideResult φ :=
  let dis := disNeg part.posMap.ids neg.ids
  assemble config part neg partMap
    (posFeats config part (gather tables.nodeFeats part.posMap.ids))
    (readMarked dis (ddInd config dis partMap) (gather tables.nodeFeats))

/-- The edge side of a block. -/
def preFetchEdge (config : Config) (tables : FeatTables φ ψ) (valid : ValidEdges ψ)
    (part : SidePart ψ) (neg : IdSet) (partMap : List Nat) : SideResult ψ :=
  let dis := disNeg part.posMap.ids neg.ids
  assemble config part neg partMap
    (posFeats config part (selectEdge config tables valid part.posMap.ids))
    (negEdgeFeats config tables valid dis (ddInd config dis partMap))

end Reads

section Memory

variable {α : Type} [Inhabited α]

/-- The memory of a block: its rows and which nodes of the two maps are shared. -/
structure MemoryResult (α : Type) where
  rows : List (NodeMem α)
  preSame : List Bool
  curSame : List Bool
  deriving DecidableEq

/-- `mem_update`: the rows of distinct nodes overwritten in the host tables. -/
def memUpdate (host : Nat → NodeMem α) : MemoryInfo α → Nat → NodeMem α
  | none => host
  | some (indices, rows) => writeAll host indices rows

/-- The memory of the nodes of a map. With `data_incre` only the rows of the nodes
that the previous map does not have are read; what stands in the others is
replaced on the GPU. -/
def selectMemory (config : Config) (host : Nat → NodeMem α) (partMap map : List Nat) :
    MemoryResult α :=
  let curSame := isin map partMap false
  let dis := curSame.map (!·)
  { rows := if config.dataIncre then
        maskAssign (map.map fun _ => default) dis ((maskSelect dis map).map host)
      else map.map host
    preSame := isin partMap map false
    curSame := curSame }

/-- The arguments of `pre_fetch`. -/
structure PreFetchArgs (α : Type) where
  blockNum : Nat
  memoryInfo : MemoryInfo α
  negInfo : NegInfo
  partNodeMap : List Nat
  partEdgeMap : List Nat

/-- The result of `pre_fetch`. -/
structure PreFetched (φ ψ α : Type) where
  node : SideResult φ
  edge : SideResult ψ
  memory : MemoryResult α

/-- `pre_fetch` on host tables that `memory_info` has been written to. -/
def preFetch {φ ψ : Type} [Inhabited φ] [Inhabited ψ] (config : Config) (tables : FeatTables φ ψ)
    (parts : Nat → BlockPart φ ψ) (host : Nat → NodeMem α) (args : PreFetchArgs α) :
    PreFetched φ ψ α :=
  let part := parts args.blockNum
  let node := preFetchNode config tables part.node args.negInfo.nodes args.partNodeMap
  { node := node
    edge := preFetchEdge config tables part.valid part.edge args.negInfo.eids args.partEdgeMap
    memory := selectMemory config host args.partNodeMap node.map }

end Memory

end Dolphin.Buffer
