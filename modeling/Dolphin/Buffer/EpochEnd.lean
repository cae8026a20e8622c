import Dolphin.Buffer.NodeRows

/-!
# The end of an epoch

`refresh_memory` writes the rows of the last block's map to the host. The rows that
were taken from the buffer at the start of the last block never get there: they
travel with the request for the block after it, which is never sent. A root of the
last block but one keeps its final row only if the last map has it as well, or if
the row did not change after the host got it.
-/

namespace Dolphin.Buffer.Epoch

open Dolphin.Memory Dolphin.Sampler Dolphin.Semantics Dolphin.Tensor

variable {φ ψ α : Type} {epoch : Epoch φ ψ α}

section End

variable [Inhabited φ] [Inhabited ψ] [Inhabited α]

/-- The host at the end: the last map has its rows, every other node what the host knew
when the last block was prefetched. -/
theorem ended_host (updates : epoch.RootUpdates) (v : Nat) :
    epoch.ended.host v =
      if v ∈ epoch.nodeMap epoch.lastBlock then epoch.table (epoch.lastBatch + 1) v
      else epoch.hostAt epoch.lastBlock v := by
  have batch := epoch.hasBatch_lastBatch
  obtain ⟨gpu, synced⟩ := updates.synced batch
  have last := synced.loaded.updates (epoch.updates epoch.lastBatch)
  have rows := synced.updates updates batch (epoch.updates epoch.lastBatch).length
  rw [tableDuring, List.take_length] at rows
  rw [ended, finished, BufferState.refreshMemory_host last.loaded, rows, Gpu.updates_node,
    writeAll_map, synced.loaded.nodeMap, BufferState.updates, synced.host]
  rfl

/-- A node has its row of the reference run at the end, unless it is a root of the last
block but one that the last map does not have: then its row must be the one with which
the host saw it last. -/
theorem ended_node_iff (updates : epoch.RootUpdates) (v : Nat) :
    epoch.ended.host v = epoch.table (epoch.lastBatch + 1) v ↔
      ∀ block, epoch.lastBlock = block + 1 → v ∈ epoch.rootNodes block →
        v ∉ epoch.nodeMap (block + 1) →
          epoch.tableAt (block + 1) v = epoch.tableAt (epoch.lastSync v (block + 1)) v := by
  have batch := epoch.hasBatch_lastBatch
  have hasBlock : epoch.HasBlock epoch.lastBlock := batch.hasBlock
  rw [ended_host updates]
  by_cases covered : v ∈ epoch.nodeMap epoch.lastBlock
  · rw [if_pos covered]
    refine ⟨fun _ block last _ absent => ?_, fun _ => rfl⟩
    rw [last] at covered
    exact absurd covered absent
  · rw [if_neg covered, updates.hostAt_eq hasBlock]
    -- the node is no root of the last block, which leaves its row alone
    have other : v ∉ epoch.rootNodes epoch.lastBlock := fun root =>
      covered (updates.rootsInMap _ hasBlock v root)
    have still : epoch.table (epoch.lastBatch + 1) v = epoch.tableAt epoch.lastBlock v :=
      (updates.table_succ batch other).trans (updates.table_block batch other)
    rw [still]
    constructor
    · intro ends block last _ _
      rw [← last]
      exact ends.symm
    · intro settled
      cases last : epoch.lastBlock with
      | zero => rfl
      | succ block =>
          rw [last] at covered
          by_cases root : v ∈ epoch.rootNodes block
          · exact (settled block last root covered).symm
          · rw [lastSync, if_pos root]

/-- Nothing is lost if the last map has all roots of the block before. -/
theorem ended_of_covered (updates : epoch.RootUpdates)
    (covered : ∀ block, epoch.lastBlock = block + 1 →
      ∀ v ∈ epoch.rootNodes block, v ∈ epoch.nodeMap (block + 1)) (v : Nat) :
    epoch.ended.host v = epoch.table (epoch.lastBatch + 1) v :=
  (ended_node_iff updates v).mpr fun block last root absent =>
    absurd (covered block last v root) absent

/-- The epoch ends with the rows of the reference run if and only if every root of the
last block but one that the last map does not have, still has the row with which the
host saw it last. -/
theorem ended_eq_reference_iff (updates : epoch.RootUpdates) :
    (∀ v, epoch.ended.host v = epoch.table (epoch.lastBatch + 1) v) ↔
      ∀ block, epoch.lastBlock = block + 1 →
        ∀ v ∈ epoch.rootNodes block, v ∉ epoch.nodeMap (block + 1) →
          epoch.tableAt (block + 1) v = epoch.tableAt (epoch.lastSync v (block + 1)) v := by
  constructor
  · intro ends block last v
    exact (ended_node_iff updates v).mp (ends v) block last
  · intro settled v
    exact (ended_node_iff updates v).mpr fun block last => settled block last v

end End

theorem ended_eq_reference_iff_recurring :
    (∀ v, recurringBlocks.ended.host v =
        recurringBlocks.table (recurringBlocks.lastBatch + 1) v) ↔
      ∀ block, recurringBlocks.lastBlock = block + 1 →
        ∀ v ∈ recurringBlocks.rootNodes block, v ∉ recurringBlocks.nodeMap (block + 1) →
          recurringBlocks.tableAt (block + 1) v =
            recurringBlocks.tableAt (recurringBlocks.lastSync v (block + 1)) v :=
  ended_eq_reference_iff recurringBlocks_rootUpdates

/-- A root of the second of three blocks loses what was written to it. -/
theorem ended_loses_row :
    recurringBlocks.RootUpdates ∧
      recurringBlocks.ended.host 4 = ⟨[0], 0, [[0, 0]], [0]⟩ ∧
      recurringBlocks.table (recurringBlocks.lastBatch + 1) 4 = ⟨[5], 2, [[0, 0]], [0]⟩ ∧
      ¬ ∀ v, recurringBlocks.ended.host v =
        recurringBlocks.table (recurringBlocks.lastBatch + 1) v := by
  have host : recurringBlocks.ended.host 4 = ⟨[0], 0, [[0, 0]], [0]⟩ := by decide
  have reference : recurringBlocks.table (recurringBlocks.lastBatch + 1) 4 =
      ⟨[5], 2, [[0, 0]], [0]⟩ := by decide
  refine ⟨recurringBlocks_rootUpdates, host, reference, fun ends => ?_⟩
  have same := ends 4
  rw [host, reference] at same
  exact absurd same (by decide)

end Dolphin.Buffer.Epoch
