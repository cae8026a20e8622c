import Dolphin.Buffer.EdgeReorder
import Dolphin.Train.Transparency
import Dolphin.ValidEdge.BlockReads

/-!
# Training on prepared data

What the preprocessing programs leave behind is enough for the buffer: the part files hold
the features that their plan names, `gen_expire` has written the slots of the valid edges, and
`reorder_edge` the edge features in the order of the graph. Then training with the buffer is
training on tables, from memory, with valid edges and from disk.
-/

namespace Dolphin.Train.Training

open Dolphin.Buffer Dolphin.Cache Dolphin.Graph Dolphin.Sampler Dolphin.Tensor Dolphin.ValidEdge

variable {φ α : Type}

/-- The valid edges of every block are those after its slots have been replayed. -/
structure ValidEdgesPrepared (training : Training φ α)
    (graph : StreamGraph training.run.stream) : Prop where
  layers : training.fanNums.length = 1 ∨ training.fanNums.length = 2
  fanouts : ∀ f ∈ training.fanNums, f ≤ 10
  recent : ∀ block, HopsRecent graph training.run.sizes training.fanNums block
  few : training.run.stream.eid.length ≤ unused
  features : training.run.stream.eid.length ≤ training.tables.edgeFeats.length
  searchable : SearchableRun graph.indptr training.run.sizes.batchSize
    (datasetBlocks graph.toTemporalCsr training.run.stream training.run.sizes.batchSize)
  replayed : ∃ slots, genExpire graph.indptr training.run.sizes.batchSize
      (datasetBlocks graph.toTemporalCsr training.run.stream training.run.sizes.batchSize) =
        some slots ∧
    ∀ block, training.run.sizes.blockStart block < training.run.sizes.trainEdgeEnd →
      replay slots.files training.tables.edgeFeats slots.state.endPtr
        training.run.stream.eid.length (block + 1) = some (training.parts block).valid

/-- The files of `reorder_edge`. -/
def ReorderPrepared (training : Training φ α) (graph : StreamGraph training.run.stream) : Prop :=
  ∃ (csr : ExtFull) (scattered : List Nat), csr.eid = graph.totaleid ∧
    scattered.Perm (List.range csr.eid.length) ∧
    reorderEdge csr.eid training.tables.edgeFeats scattered =
      some ⟨training.tables.edgeFeaturesReorder, training.tables.edgeReorderMap.map Int.ofNat⟩

/-- What a run reads has been prepared for it, with some cache windows. -/
structure Prepared [Inhabited φ] (training : Training φ α) (graph : StreamGraph training.run.stream)
    (windows : List Window) : Prop where
  built : training.g = graph.toTemporalCsr
  covers : ∀ block, training.run.sizes.blockStart block < training.run.sizes.trainEdgeEnd →
    block < (windows.map Window.blocks).sum
  node : SideStored (fun v => training.tables.nodeFeats.getD v default)
    (planWindows (fun block => (training.parts block).node.posMap.ids) 0 .initial
      (windows.map fun window => (window.cacheNid, window.blocks))).files
    fun block => (training.parts block).node
  edge : SideStored (fun e => training.tables.edgeFeats.getD e default)
    (planWindows (fun block => (training.parts block).edge.posMap.ids) 0 .initial
      (windows.map fun window => (window.cacheEid, window.blocks))).files
    fun block => (training.parts block).edge
  valid : training.config.validEdge = true → training.ValidEdgesPrepared graph
  reordered : training.config.useDisk = true → training.ReorderPrepared graph

variable {training : Training φ α} {graph : StreamGraph training.run.stream}
  {windows : List Window}

/-- The negatives of a block reach edges of the stream. -/
theorem negEdge_lt (built : training.g = graph.toTemporalCsr) {block e : Nat}
    (member : e ∈ (training.negInfo block).eids.ids) : e < training.run.stream.eid.length := by
  have sampled := mem_unique.mp member
  rw [built] at sampled
  exact preNegSample_edge_lt training.inStream sampled

/-- The rows of the reordered file. -/
theorem ReorderPrepared.row (reordered : training.ReorderPrepared graph) {e : Nat}
    (known : e < training.run.stream.eid.length) :
    training.tables.edgeFeaturesReorder.getD (training.tables.edgeReorderMap.getD e default)
      default = training.tables.edgeFeats.getD e default := by
  obtain ⟨csr, scattered, own, order, saved⟩ := reordered
  obtain ⟨p, row, position, moved, feature⟩ :=
    reorderEdge_row order saved (own ▸ graph.present e known)
  rw [List.getElem?_map, Option.map_eq_some_iff] at position
  obtain ⟨q, atEdge, same⟩ := position
  obtain rfl : q = p := Int.ofNat.inj same
  simp only [List.getD_eq_getElem?_getD, atEdge, Option.getD_some, feature]
  rw [moved, Option.getD_some]

variable [Inhabited φ]

/-- The files of a prepared run hold the features of its buffer. -/
theorem Prepared.held (prepared : training.Prepared graph windows) (planned : training.Planned) :
    (training.epoch planned).FeaturesHeld windows where
  covers := prepared.covers
  node := prepared.node
  edge := prepared.edge
  valid := by
    intro enabled block hasBlock e asked
    have valid := prepared.valid enabled
    have sized : 0 < training.run.sizes.batchSize := by
      rw [training.sized.batchSize]
      exact Nat.succ_pos _
    have start : training.run.sizes.blockStart block = block * training.run.sizes.batchSize := by
      rw [training.sized.blockStart, training.sized.batchSize]
    have begun : block * training.run.sizes.batchSize < training.run.stream.eid.length :=
      start ▸ hasBlock.trans_le training.inStream
    obtain ⟨slots, ran, stored⟩ := valid.replayed
    obtain ⟨edges, replayed, reads⟩ := replay_reads sized training.inStream valid.layers
      valid.fanouts begun (valid.recent block) valid.few valid.searchable valid.features ran
      (training.run.negatives block)
    obtain rfl := Option.some.inj (replayed.symm.trans (stored block hasBlock))
    refine reads [e] fun e' member => ?_
    obtain rfl := List.mem_singleton.mp member
    rw [← prepared.built]
    rcases asked with negative | ⟨-, positive⟩
    · exact Or.inr (mem_unique.mp negative)
    · exact Or.inl (planned.edges block ▸ positive)
  reordered := fun disk block _ e member =>
    (prepared.reordered disk).row (negEdge_lt prepared.built member)

variable [Inhabited α]

/-- On prepared data, whatever the model answers, training with the buffer is training on
tables. -/
theorem prepared_eq_plain (prepared : training.Prepared graph windows)
    (planned : training.Planned) (single : training.param.mailboxSize ≤ 1) {cpuCount : Nat}
    {threshold : Int} {plan : List (List Nat)}
    (split : Eid.processSplit cpuCount training.run.stream 0 training.run.sizes.trainEdgeEnd 60000
      threshold = some plan)
    (joined : ∀ batch ∈ plan, Eid.Concatenates batch) : SameRuns training planned plan :=
  sameRuns planned (prepared.held planned) single split joined

end Dolphin.Train.Training
