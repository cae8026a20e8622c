import Dolphin.Buffer.Features
import Dolphin.Buffer.NodeRows

/-!
# The buffer beside a table of all rows

At any moment of a run there is one table with the current row of every node: the buffer
has the rows of its block, and the host those of all nodes that are no roots of the block,
as soon as the prepared request has been written. `Tracks` says so without the calls that
led there, so it can be kept along runs whose updates are not known in advance.
-/

namespace Dolphin.Buffer.Epoch

open Dolphin.Graph Dolphin.Memory Dolphin.Sampler Dolphin.Semantics Dolphin.Tensor

variable {φ ψ α : Type} [Inhabited φ] [Inhabited ψ] [Inhabited α] {epoch : Epoch φ ψ α}
  {windows : List Window} {block : Nat} {state : BufferState φ ψ α} {gpu : Gpu φ ψ α}
  {info : MemoryInfo α} {rows : Nat → NodeMem α}

/-- The buffer holds a block with the features of its ids and the rows of a table. -/
structure Tracks (epoch : Epoch φ ψ α) (block : Nat) (state : BufferState φ ψ α)
    (gpu : Gpu φ ψ α) (info : MemoryInfo α) (rows : Nat → NodeMem α) : Prop where
  loaded : epoch.Loaded block state gpu info
  node : gpu.node.Own epoch.nodeFeature
  edge : gpu.edge.Own epoch.edgeFeature
  memory : gpu.memory = gpu.node.map.map rows
  host : ∀ v, v ∉ epoch.rootNodes block → memUpdate state.host info v = rows v

/-- The map of every block has the block's roots. -/
def RootsInMaps (epoch : Epoch φ ψ α) : Prop :=
  ∀ block, epoch.HasBlock block → ∀ v ∈ epoch.rootNodes block, v ∈ epoch.nodeMap block

omit [Inhabited α] in
theorem Tracks.increasing (tracks : epoch.Tracks block state gpu info rows) :
    gpu.node.map.Pairwise (· < ·) := by
  rw [tracks.loaded.nodeMap]
  exact epoch.nodeMap_increasing block

/-! ## Reads -/

/-- What is read by node. -/
theorem Tracks.getMails (tracks : epoch.Tracks block state gpu info rows) {nid : List Nat}
    (inMap : ∀ v ∈ nid, v ∈ epoch.nodeMap block) : gpu.getMails nid = nid.map rows := by
  rw [Gpu.getMails, tracks.memory]
  refine wrapGather_findSameIndex rows (tracks.increasing.imp Nat.le_of_lt) fun v member => ?_
  rw [tracks.loaded.nodeMap]
  exact inMap v member

/-- The rows of a side that are read by id. -/
theorem getFeat_own {χ : Type} [Inhabited χ] {side : GpuSide χ} {feature : Nat → χ}
    (own : side.Own feature) {pos neg : IdSet} (map : side.map = mergeMap pos.ids neg.ids)
    {ids : List Nat} (inMap : ∀ v ∈ ids, v ∈ mergeMap pos.ids neg.ids) :
    side.getFeat ids = ids.map feature := by
  rw [GpuSide.getFeat, own, map]
  exact wrapGather_findSameIndex feature ((mergeMap_increasing pos neg).imp Nat.le_of_lt) inMap

omit [Inhabited α] in
theorem Tracks.nodeFeat (tracks : epoch.Tracks block state gpu info rows) {ids : List Nat}
    (inMap : ∀ v ∈ ids, v ∈ epoch.nodeMap block) :
    gpu.node.getFeat ids = ids.map epoch.nodeFeature :=
  getFeat_own tracks.node tracks.loaded.nodeMap inMap

omit [Inhabited α] in
theorem Tracks.edgeFeat (tracks : epoch.Tracks block state gpu info rows) {ids : List Nat}
    (inMap : ∀ e ∈ ids, e ∈ epoch.edgeMap block) :
    gpu.edge.getFeat ids = ids.map epoch.edgeFeature :=
  getFeat_own tracks.edge tracks.loaded.edgeMap inMap

/-! ## Steps -/

/-- The first block. -/
theorem tracks_first (stored : epoch.FeaturesHeld windows) (hasFirst : epoch.HasBlock 0) :
    epoch.Tracks 0 (epoch.trigger epoch.initial) epoch.firstGpu none epoch.initial.host where
  loaded := epoch.loaded_first
  node := (stored.first hasFirst).1
  edge := (stored.first hasFirst).2
  memory := epoch.synced_first.memory
  host := fun _ _ => rfl

omit [Inhabited α] in
/-- A call on roots of the block. -/
theorem Tracks.update (tracks : epoch.Tracks block state gpu info rows)
    (roots : epoch.RootsInMaps) (hasBlock : epoch.HasBlock block) {call : Update α}
    (onRoots : ∀ v ∈ call.nid, v ∈ epoch.rootNodes block) :
    epoch.Tracks block { state with gpu := some (gpu.update call) } (gpu.update call) info
      (editAll rows call.edits) where
  loaded :=
    { tracks.loaded with
      loaded := rfl }
  node := tracks.node
  edge := tracks.edge
  memory := Gpu.update_memory tracks.increasing tracks.memory fun v member => by
    rw [tracks.loaded.nodeMap]
    exact roots block hasBlock v (onRoots v member)
  host := by
    intro v other
    have untouched : v ∉ call.edits.map Prod.fst :=
      fun edited => other (onRoots v (call.edits_nid edited))
    rw [editAll_other untouched]
    exact tracks.host v other

omit [Inhabited α] in
/-- Calls on roots of the block. -/
theorem Tracks.updates (tracks : epoch.Tracks block state gpu info rows)
    (roots : epoch.RootsInMaps) (hasBlock : epoch.HasBlock block) {calls : List (Update α)}
    (onRoots : ∀ call ∈ calls, ∀ v ∈ call.nid, v ∈ epoch.rootNodes block) :
    epoch.Tracks block { state with gpu := some (gpu.updates calls) } (gpu.updates calls) info
      (tableUpdates rows calls) := by
  induction calls generalizing state gpu rows with
  | nil =>
      have loaded := tracks.loaded
      exact { tracks with loaded := { loaded with loaded := rfl } }
  | cons call calls ih =>
      obtain ⟨first, later⟩ := List.forall_mem_cons.mp onRoots
      have rest := ih (tracks.update roots hasBlock first) later
      exact rest

/-- The rows that are sent for a block are those of nodes that are no roots of it, and
what is not sent of the block before is a root of both. -/
theorem Tracks.memoryInfo (tracks : epoch.Tracks block state gpu info rows)
    (roots : epoch.RootsInMaps) (hasBlock : epoch.HasBlock block) :
    ∃ nodes, epoch.memoryInfo (block + 1) (some gpu) = some (nodes, nodes.map rows) ∧
      ∀ v ∈ epoch.rootNodes block, v ∉ epoch.rootNodes (block + 1) → v ∈ nodes := by
  rw [Epoch.memoryInfo, Option.map_some, Nat.add_sub_cancel]
  cases epoch.config.modelEval with
  | true =>
      refine ⟨gpu.node.map, by rw [tracks.memory]; rfl, fun v root _ => ?_⟩
      rw [tracks.loaded.nodeMap]
      exact roots block hasBlock v root
  | false =>
      have inMap : ∀ v ∈ epoch.retiredRoots block, v ∈ epoch.nodeMap block :=
        fun v retired => roots block hasBlock v (mem_retiredRoots.mp retired).1
      refine ⟨epoch.retiredRoots block, by rw [← tracks.getMails inMap]; rfl, ?_⟩
      exact fun v root next => mem_retiredRoots.mpr ⟨root, next⟩

/-- The next block. -/
theorem Tracks.next (tracks : epoch.Tracks block state gpu info rows)
    (stored : epoch.FeaturesHeld windows) (roots : epoch.RootsInMaps)
    (hasNext : epoch.HasBlock (block + 1)) :
    ∃ gpu' info', epoch.Tracks (block + 1) (epoch.trigger state) gpu' info' rows := by
  have hasBlock := hasNext.mono (Nat.le_succ block)
  obtain ⟨loaded, host⟩ := tracks.loaded.trigger hasNext
  obtain ⟨node, edge⟩ := stored.next hasNext tracks.loaded tracks.node tracks.edge
  obtain ⟨nodes, sent, complete⟩ := tracks.memoryInfo roots hasBlock
  refine ⟨_, _, loaded, node, edge, ?_, fun v other => ?_⟩
  · -- a node that is not in the buffer is no root of the block, so the host has its row
    exact prefetchAfter_memory epoch.config tracks.increasing tracks.memory
      (epoch.nodeMap_increasing (block + 1)) rfl fun v _ absent =>
        tracks.host v fun root => absent (tracks.loaded.nodeMap ▸ roots block hasBlock v root)
  · rw [sent, host, memUpdate, writeAll_map]
    split
    case isTrue => rfl
    case isFalse kept =>
        exact tracks.host v fun root => kept (complete v root other)

end Dolphin.Buffer.Epoch
