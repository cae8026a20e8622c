import Dolphin.Buffer.PreFetch
import Dolphin.Sampler.PartMaps

/-!
# The buffer on the GPU

The main process keeps the maps of the current block with the features and the
memory rows of its ids. `analyze` fills the buffer for the first block,
`prefetch_after` replaces it with what the worker prepared and takes from the old
buffer what the worker left out. In between, batches read rows by id and write the
memory of their root nodes.
-/

namespace Dolphin.Buffer

open Dolphin.Graph Dolphin.Memory Dolphin.Sampler Dolphin.Semantics Dolphin.Tensor

/-- `part_node_map` with `part_node_feats`, or `part_edge_map` with `part_edge_feats`. -/
@[ext]
structure GpuSide (φ : Type) where
  map : List Nat
  feats : List φ
  deriving DecidableEq

/-- The tensors of the buffer. `part_memory_map` is `part_node_map`. -/
@[ext]
structure Gpu (φ ψ α : Type) where
  node : GpuSide φ
  edge : GpuSide ψ
  memory : List (NodeMem α)
  deriving DecidableEq

/-- `get_n_feat` and `get_e_feat`. -/
def GpuSide.getFeat {φ : Type} [Inhabited φ] (side : GpuSide φ) (ids : List Nat) : List φ :=
  wrapGather side.feats (findSameIndex ids side.map)

/-! ## Batches -/

section Batches

variable {φ ψ α : Type}

/-- `get_mails`. -/
def Gpu.getMails [Inhabited α] (gpu : Gpu φ ψ α) (nid : List Nat) : List (NodeMem α) :=
  wrapGather gpu.memory (findSameIndex nid gpu.node.map)

/-- A call of `update_memory` or of `update_mailbox`; there is no pointer when the
mailbox has one slot. -/
inductive Update (α : Type) where
  | memory (nid : List Nat) (memory : List (List α)) (ts : List α)
  | mailbox (nid : List Nat) (mail : List (List α)) (mailTs : List α) (nPtr : Option (List Nat))

/-- The nodes of a call. -/
def Update.nid : Update α → List Nat
  | .memory nid _ _ => nid
  | .mailbox nid _ _ _ => nid

/-- What a call does to the row of each of its nodes. -/
def Update.edits : Update α → List (Nat × (NodeMem α → NodeMem α))
  | .memory nid mem ts =>
      nid.zip ((mem.zip ts).map fun value row =>
        { row with memory := value.1, memoryTs := value.2 })
  | .mailbox nid mail mailTs nPtr =>
      let ptr := nPtr.getD (nid.map fun _ => 0)
      nid.zip ((mail.zip (mailTs.zip ptr)).map fun value row =>
        { row with
          mailbox := row.mailbox.set value.2.2 value.1
          mailboxTs := row.mailboxTs.set value.2.2 value.2.1 })

/-- The row a node is written to; the index −1 of a node that is not found is the
last row. -/
def rowIndex (map : List Nat) (v : Nat) : Nat :=
  (findIndexAndSet map v map.length 0 map.length).getD (map.length - 1)

/-- `update_memory` and `update_mailbox`. -/
def Gpu.update (gpu : Gpu φ ψ α) (call : Update α) : Gpu φ ψ α :=
  { gpu with memory := editColumn (rowIndex gpu.node.map) gpu.memory call.edits }

/-- The calls of a batch, in order. -/
def Gpu.updates (gpu : Gpu φ ψ α) (calls : List (Update α)) : Gpu φ ψ α :=
  calls.foldl Gpu.update gpu

@[simp] theorem Gpu.updates_node (gpu : Gpu φ ψ α) (calls : List (Update α)) :
    (gpu.updates calls).node = gpu.node := by
  induction calls generalizing gpu with
  | nil => rfl
  | cons call calls ih => exact ih (gpu.update call)

@[simp] theorem Gpu.updates_edge (gpu : Gpu φ ψ α) (calls : List (Update α)) :
    (gpu.updates calls).edge = gpu.edge := by
  induction calls generalizing gpu with
  | nil => rfl
  | cons call calls ih => exact ih (gpu.update call)

end Batches

/-! ## Loading -/

section Load

variable {φ : Type} [Inhabited φ]

/-- One side of `load_part`. -/
def SidePart.load (part : SidePart φ) : GpuSide φ := ⟨part.posMap.ids, part.partFeat⟩

/-- `dis_neg_nodes` and `dis_neg_eids` of `analyze`. -/
def GpuSide.disNeg (side : GpuSide φ) (neg : IdSet) : List Nat :=
  let negSorted := sort neg.ids
  maskSelect ((findSameNode negSorted side.map).map (!·)) negSorted

/-- A side of `analyze` with the rows of the newly reached negatives. -/
def GpuSide.merge (side : GpuSide φ) (dis : List Nat) (feats : List φ) : GpuSide φ :=
  { map := sort (side.map ++ dis)
    feats := gather (side.feats ++ feats) (argsort (side.map ++ dis)) }

/-- One side of `analyze` for the first block: all its positives come from its file,
and the newly reached negatives are selected. -/
def analyzeSide (part : SidePart φ) (neg : IdSet) (select : List Nat → List φ) : GpuSide φ :=
  part.load.merge (part.load.disNeg neg) (select (part.load.disNeg neg))

/-- One side of `prefetch_after`. -/
def GpuSide.prefetchAfter (previous : GpuSide φ) (result : SideResult φ) : GpuSide φ :=
  { map := result.map
    feats := indexAssign result.feats result.dInd
      (previous.getFeat (gather result.map result.dInd)) }

end Load

variable {φ ψ α : Type} [Inhabited φ] [Inhabited ψ] [Inhabited α]

/-- `analyze_mem` on a buffer without memory. With the features on disk the rows are
zeros, else they are read from the host. -/
def analyzeMem (config : Config) (param : MemoryParam) (host : Nat → NodeMem α)
    (nodes : List Nat) : List (NodeMem α) :=
  if config.useDisk then nodes.map fun _ => (NodeRow.zeros α param).1 else nodes.map host

/-- `load_part` and `analyze` for the first block. -/
def analyze (config : Config) (param : MemoryParam) (tables : FeatTables φ ψ)
    (part : BlockPart φ ψ) (host : Nat → NodeMem α) (neg : NegInfo) : Gpu φ ψ α :=
  let node := analyzeSide part.node neg.nodes (gather tables.nodeFeats)
  { node := node
    edge := analyzeSide part.edge neg.eids (selectEdge config tables part.valid)
    memory := analyzeMem config param host node.map }

/-- `Feat_buffer.prefetch_after`. -/
def Gpu.prefetchAfter (previous : Gpu φ ψ α) (fetched : PreFetched φ ψ α) : Gpu φ ψ α where
  node := previous.node.prefetchAfter fetched.node
  edge := previous.edge.prefetchAfter fetched.edge
  memory := maskAssign fetched.memory.rows fetched.memory.curSame
    (maskSelect fetched.memory.preSame previous.memory)

/-- The arguments of the request for a block, next to what was stored for it. -/
def Gpu.preFetchArgs (gpu : Gpu φ ψ α) (block : Nat) (stored : MemoryInfo α × NegInfo) :
    PreFetchArgs α where
  blockNum := block
  memoryInfo := stored.1
  negInfo := stored.2
  partNodeMap := gpu.node.map
  partEdgeMap := gpu.edge.map

/-- The map that `analyze` builds. -/
theorem analyzeSide_map {φ : Type} [Inhabited φ] (part : SidePart φ) (neg : IdSet)
    (select : List Nat → List φ) :
    (analyzeSide part neg select).map = mergeMap part.posMap.ids neg.ids := by
  have unfound : (findSameNode neg.ids part.posMap.ids).map (!·) =
      isin neg.ids part.posMap.ids true := by
    rw [findSameNode_eq_isin part.posMap.sorted, isin, isin, List.map_map]
    refine List.map_congr_left fun x _ => ?_
    simp
  simp only [analyzeSide, SidePart.load, GpuSide.merge, GpuSide.disNeg, mergeMap, IdSet.sort_ids,
    unfound]

/-- The maps of a block are increasing. -/
theorem mergeMap_increasing (pos neg : IdSet) :
    (mergeMap pos.ids neg.ids).Pairwise (· < ·) := by
  have apart : (pos.ids ++ maskSelect (isin neg.ids pos.ids true) neg.ids).Nodup := by
    rw [maskSelect_isin]
    refine pos.nodup.append (neg.nodup.filter _) fun x inPos inRest => ?_
    simp [inPos] at inRest
  exact ((sort_pairwise _).and (sort_nodup apart)).imp fun pair => lt_of_le_of_ne pair.1 pair.2

end Dolphin.Buffer
