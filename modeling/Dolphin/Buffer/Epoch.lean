import Dolphin.Buffer.FeatBuffer
import Dolphin.Sampler.PartMaps

/-!
# A training epoch

`run_batch` is called for the batches of the epoch in turn. At the first batch of a
block it brings the block into the buffer: the first block through `analyze`, every
later one through `pre_fetch` with the arguments that the block before it left
behind, and `prefetch_after`. This is the run without `use_async`; the worker
handles each request before the main process goes on.

What the epoch depends on is fixed in advance: the edges, the parts of the blocks,
the negatives that are drawn and the calls with which each batch writes memory.
-/

namespace Dolphin.Buffer

open Dolphin.Memory Dolphin.Sampler Dolphin.Semantics Dolphin.Tensor

/-- What the buffer and the worker keep between two batches. -/
structure BufferState (φ ψ α : Type) where
  curBlock : Nat
  /-- Nothing is loaded after `reset`. -/
  gpu : Option (Gpu φ ψ α)
  /-- `self.memory_info` and `self.neg_info`. -/
  stored : Option (MemoryInfo α × NegInfo)
  /-- The tables of the worker. -/
  host : Nat → NodeMem α

/-- The inputs of an epoch. -/
structure Epoch (φ ψ α : Type) where
  config : Config
  param : MemoryParam
  sizes : BlockConfig
  /-- `datas['src']` and `datas['dst']`. -/
  src : List Nat
  dst : List Nat
  tables : FeatTables φ ψ
  parts : Nat → BlockPart φ ψ
  /-- The negatives of each block. -/
  neg : Nat → NegInfo
  /-- The memory and mailbox updates of each batch. -/
  updates : Nat → List (Update α)
  shareNodeNum : Nat
  shareEdgeNum : Nat
  sized : 0 < sizes.preSampleSize
  nonempty : 0 < sizes.trainEdgeEnd
  divides : sizes.trainBatchSize ∣ sizes.preSampleSize
  /-- The maps fit the shared tensors; the worker gives up on a map that does not. -/
  nodeFits : ∀ block, (mergeMap (parts block).node.posMap.ids (neg block).nodes.ids).length ≤
    shareNodeNum
  edgeFits : ∀ block, (mergeMap (parts block).edge.posMap.ids (neg block).eids.ids).length ≤
    shareEdgeNum

namespace Epoch

variable {φ ψ α : Type} (epoch : Epoch φ ψ α)

/-- `part_node_map` of a block. -/
def nodeMap (block : Nat) : List Nat :=
  mergeMap (epoch.parts block).node.posMap.ids (epoch.neg block).nodes.ids

/-- `part_edge_map` of a block. -/
def edgeMap (block : Nat) : List Nat :=
  mergeMap (epoch.parts block).edge.posMap.ids (epoch.neg block).eids.ids

/-- The batch is one of the epoch. -/
def HasBatch (i : Nat) : Prop := i * epoch.sizes.trainBatchSize < epoch.sizes.trainEdgeEnd

/-- The block is one of the epoch. -/
def HasBlock (block : Nat) : Prop := epoch.sizes.blockStart block < epoch.sizes.trainEdgeEnd

instance (i : Nat) : Decidable (epoch.HasBatch i) := inferInstanceAs (Decidable (_ < _))

instance (block : Nat) : Decidable (epoch.HasBlock block) := inferInstanceAs (Decidable (_ < _))

/-- `root_nodes` of a block: the nodes of its training edges. -/
def rootNodes (block : Nat) : List Nat :=
  let start := epoch.sizes.blockStart block
  let stop := epoch.sizes.blockEnd block
  unique (slice epoch.src start stop ++ slice epoch.dst start stop)

/-- The roots of a block that are not roots of the next one. -/
def retiredRoots (block : Nat) : List Nat :=
  maskSelect (isin (epoch.rootNodes block) (epoch.rootNodes (block + 1)) true)
    (epoch.rootNodes block)

/-- `pre_neg_sample`; past the training edges there is nothing to sample. -/
def preNegSample (block : Nat) : Option NegInfo :=
  if epoch.sizes.blockStart block < epoch.sizes.blockEnd block then some (epoch.neg block)
  else none

/-! ### Blocks and batches -/

theorem trainBatchSize_pos : 0 < epoch.sizes.trainBatchSize :=
  Nat.pos_of_dvd_of_pos epoch.divides epoch.sized

theorem batchNum_mul : epoch.sizes.batchNum * epoch.sizes.trainBatchSize =
    epoch.sizes.preSampleSize :=
  Nat.div_mul_cancel epoch.divides

theorem batchNum_pos : 0 < epoch.sizes.batchNum :=
  Nat.div_pos (Nat.le_of_dvd epoch.sized epoch.divides) epoch.trainBatchSize_pos

/-- A block opens at the batches that are multiples of `batch_num`. -/
theorem left_mod (i : Nat) :
    i * epoch.sizes.trainBatchSize % epoch.sizes.preSampleSize = 0 ↔
      i % epoch.sizes.batchNum = 0 := by
  rw [← epoch.batchNum_mul, Nat.mul_mod_mul_right, Nat.mul_eq_zero]
  have positive := epoch.trainBatchSize_pos
  omega

/-- The block of a batch of the epoch is a block of the epoch. -/
theorem HasBatch.hasBlock {epoch : Epoch φ ψ α} {i : Nat} (batch : epoch.HasBatch i) :
    epoch.HasBlock (i / epoch.sizes.batchNum) := by
  have first : i / epoch.sizes.batchNum * epoch.sizes.batchNum ≤ i := Nat.div_mul_le_self _ _
  exact lt_of_le_of_lt (Nat.mul_le_mul_right _ first) batch

theorem HasBatch.mono {epoch : Epoch φ ψ α} {i j : Nat} (batch : epoch.HasBatch j)
    (order : i ≤ j) : epoch.HasBatch i :=
  lt_of_le_of_lt (Nat.mul_le_mul_right _ order) batch

theorem HasBlock.mono {epoch : Epoch φ ψ α} {block later : Nat} (hasBlock : epoch.HasBlock later)
    (order : block ≤ later) : epoch.HasBlock block :=
  lt_of_le_of_lt (Nat.mul_le_mul_right _ (Nat.mul_le_mul_right _ order)) hasBlock

/-- The last batch. -/
def lastBatch : Nat := (epoch.sizes.trainEdgeEnd - 1) / epoch.sizes.trainBatchSize

theorem hasBatch_lastBatch : epoch.HasBatch epoch.lastBatch := by
  have below := Nat.div_mul_le_self (epoch.sizes.trainEdgeEnd - 1) epoch.sizes.trainBatchSize
  have nonempty := epoch.nonempty
  rw [HasBatch, lastBatch]
  omega

/-- The last block. -/
def lastBlock : Nat := epoch.lastBatch / epoch.sizes.batchNum

/-- No block follows it. -/
theorem not_hasBlock_lastBlock : ¬epoch.HasBlock (epoch.lastBlock + 1) := by
  intro next
  have start : (epoch.lastBlock + 1) * epoch.sizes.batchNum ≤ epoch.lastBatch := by
    rw [lastBatch, Nat.le_div_iff_mul_le epoch.trainBatchSize_pos]
    exact Nat.le_sub_one_of_lt next
  have later := (Nat.le_div_iff_mul_le epoch.batchNum_pos).mpr start
  exact absurd later (Nat.not_succ_le_self _)

theorem preNegSample_eq (block : Nat) :
    epoch.preNegSample block = if epoch.HasBlock block then some (epoch.neg block) else none := by
  have room : epoch.sizes.blockStart block <
      (block * epoch.sizes.batchNum + epoch.sizes.batchNum) * epoch.sizes.trainBatchSize :=
    Nat.mul_lt_mul_of_pos_right (Nat.lt_add_of_pos_right epoch.batchNum_pos)
      epoch.trainBatchSize_pos
  have same : epoch.sizes.blockStart block < epoch.sizes.blockEnd block ↔
      epoch.HasBlock block := by
    rw [BlockConfig.blockEnd, Nat.lt_min]
    exact and_iff_left room
  simp only [preNegSample, same]

/-! ### The main process -/

section Run

variable [Inhabited φ] [Inhabited ψ] [Inhabited α]

/-- `memory_info` at the beginning of `run_batch`. -/
def memoryInfo (curBlock : Nat) (gpu : Option (Gpu φ ψ α)) : MemoryInfo α :=
  gpu.map fun gpu =>
    if epoch.config.modelEval then (gpu.node.map, gpu.memory)
    else (epoch.retiredRoots (curBlock - 1), gpu.getMails (epoch.retiredRoots (curBlock - 1)))

/-- The host tables and the buffer with the current block. Behind the first block
the attributes of the request are set. -/
def load (state : BufferState φ ψ α) : (Nat → NodeMem α) × Option (Gpu φ ψ α) :=
  if state.curBlock = 0 then
    (state.host, some (analyze epoch.config epoch.param epoch.tables (epoch.parts 0) state.host
      (epoch.neg 0)))
  else
    match state.gpu, state.stored with
    | some gpu, some stored =>
        let host := memUpdate state.host stored.1
        (host, some (gpu.prefetchAfter (preFetch epoch.config epoch.tables epoch.parts host
          (gpu.preFetchArgs state.curBlock stored))))
    | _, _ => (state.host, state.gpu)

/-- `run_batch` at the first batch of a block. -/
def trigger (state : BufferState φ ψ α) : BufferState φ ψ α :=
  let memoryInfo := epoch.memoryInfo state.curBlock state.gpu
  let loaded := epoch.load state
  { curBlock := state.curBlock + 1
    gpu := loaded.2
    stored := match epoch.preNegSample (state.curBlock + 1) with
      | some negInfo => some (memoryInfo, negInfo)
      | none => state.stored
    host := loaded.1 }

/-- `run_batch`. -/
def runBatch (state : BufferState φ ψ α) (left : Nat) : BufferState φ ψ α :=
  if left % epoch.sizes.preSampleSize = 0 then epoch.trigger state else state

end Run

end Epoch

section Run

variable {φ ψ α : Type}

/-- A batch writes its memory. -/
def BufferState.updates (state : BufferState φ ψ α) (calls : List (Update α)) :
    BufferState φ ψ α :=
  { state with gpu := state.gpu.map fun gpu => gpu.updates calls }

/-- `refresh_memory`. -/
def BufferState.refreshMemory (state : BufferState φ ψ α) : BufferState φ ψ α :=
  { state with
    host := state.gpu.elim state.host fun gpu => writeAll state.host gpu.node.map gpu.memory }

theorem BufferState.refreshMemory_host {state : BufferState φ ψ α} {gpu : Gpu φ ψ α}
    (loaded : state.gpu = some gpu) :
    state.refreshMemory.host = writeAll state.host gpu.node.map gpu.memory := by
  rw [refreshMemory, loaded, Option.elim_some]

/-- Updates on one table for all nodes. -/
def tableUpdates (table : Nat → NodeMem α) (calls : List (Update α)) : Nat → NodeMem α :=
  calls.foldl (fun table call => editAll table call.edits) table

variable [Inhabited φ] [Inhabited ψ] [Inhabited α]

namespace Epoch

variable (epoch : Epoch φ ψ α)

/-- The state after `reset` and `reset_memory`. -/
def initial : BufferState φ ψ α where
  curBlock := 0
  gpu := none
  stored := none
  host := fun _ => (NodeRow.zeros α epoch.param).1

/-- The state when `run_batch` returns for a batch. -/
def started : Nat → BufferState φ ψ α
  | 0 => epoch.runBatch epoch.initial 0
  | i + 1 => epoch.runBatch ((started i).updates (epoch.updates i))
      ((i + 1) * epoch.sizes.trainBatchSize)

/-- The state after some of a batch's updates. -/
def during (i count : Nat) : BufferState φ ψ α :=
  (epoch.started i).updates ((epoch.updates i).take count)

/-- The state when a batch is over. -/
def finished (i : Nat) : BufferState φ ψ α := (epoch.started i).updates (epoch.updates i)

/-- The end of the epoch: the last batch is over and the memory is refreshed. -/
def ended : BufferState φ ψ α := (epoch.finished epoch.lastBatch).refreshMemory

/-! ## The reference run -/

/-- The table of the reference run when a batch starts: one table for all nodes. -/
def table : Nat → Nat → NodeMem α
  | 0 => fun _ => (NodeRow.zeros α epoch.param).1
  | i + 1 => tableUpdates (table i) (epoch.updates i)

/-- The reference table after some of a batch's updates. -/
def tableDuring (i count : Nat) : Nat → NodeMem α :=
  tableUpdates (epoch.table i) ((epoch.updates i).take count)

/-! ## Runs over the batches -/

/-- What holds at the first batch and is kept by every further batch, inside a block
and at the next one, holds whenever `run_batch` returns. -/
theorem started_induction {motive : Nat → BufferState φ ψ α → Prop}
    (first : motive 0 (epoch.trigger epoch.initial))
    (inside : ∀ i, epoch.HasBatch (i + 1) →
      (i + 1) / epoch.sizes.batchNum = i / epoch.sizes.batchNum →
      motive i (epoch.started i) → motive (i + 1) (epoch.finished i))
    (next : ∀ i, epoch.HasBatch (i + 1) →
      (i + 1) / epoch.sizes.batchNum = i / epoch.sizes.batchNum + 1 →
      motive i (epoch.started i) → motive (i + 1) (epoch.trigger (epoch.finished i)))
    {i : Nat} (batch : epoch.HasBatch i) : motive i (epoch.started i) := by
  induction i with
  | zero => simpa [started, runBatch] using first
  | succ i ih =>
      have before := ih (batch.mono (Nat.le_succ i))
      have opens := epoch.left_mod (i + 1)
      rw [started, runBatch]
      split
      case isTrue opened =>
          have multiple : epoch.sizes.batchNum ∣ i + 1 := Nat.dvd_of_mod_eq_zero (opens.mp opened)
          exact next i batch (Nat.succ_div_of_dvd multiple) before
      case isFalse stays =>
          have within : ¬ epoch.sizes.batchNum ∣ i + 1 :=
            fun multiple => stays (opens.mpr (Nat.mod_eq_zero_of_dvd multiple))
          exact inside i batch (Nat.succ_div_of_not_dvd within) before

/-! ## What the buffer holds -/

/-- A block is in the buffer, and the request for the next one is prepared. -/
structure Loaded (block : Nat) (state : BufferState φ ψ α) (gpu : Gpu φ ψ α)
    (info : MemoryInfo α) : Prop where
  curBlock : state.curBlock = block + 1
  loaded : state.gpu = some gpu
  nodeMap : gpu.node.map = epoch.nodeMap block
  edgeMap : gpu.edge.map = epoch.edgeMap block
  stored : epoch.HasBlock (block + 1) → state.stored = some (info, epoch.neg (block + 1))

variable {epoch}

omit [Inhabited φ] [Inhabited ψ] [Inhabited α] in
/-- Updates touch the memory only. -/
theorem Loaded.updates {block : Nat} {state : BufferState φ ψ α} {gpu : Gpu φ ψ α}
    {info : MemoryInfo α} (loaded : epoch.Loaded block state gpu info)
    (calls : List (Update α)) :
    epoch.Loaded block (state.updates calls) (gpu.updates calls) info where
  curBlock := loaded.curBlock
  loaded := by simp [BufferState.updates, loaded.loaded]
  nodeMap := by rw [Gpu.updates_node, loaded.nodeMap]
  edgeMap := by rw [Gpu.updates_edge, loaded.edgeMap]
  stored := loaded.stored

/-- The buffer of the first block. -/
def firstGpu (epoch : Epoch φ ψ α) : Gpu φ ψ α :=
  analyze epoch.config epoch.param epoch.tables (epoch.parts 0) epoch.initial.host (epoch.neg 0)

theorem loaded_first (epoch : Epoch φ ψ α) :
    epoch.Loaded 0 (epoch.trigger epoch.initial) epoch.firstGpu none where
  curBlock := rfl
  loaded := rfl
  nodeMap := analyzeSide_map _ _ _
  edgeMap := analyzeSide_map _ _ _
  stored := fun next => by simp [trigger, preNegSample_eq, initial, next, memoryInfo]

/-- The buffer with the next block. -/
def nextGpu (epoch : Epoch φ ψ α) (block : Nat) (state : BufferState φ ψ α) (gpu : Gpu φ ψ α)
    (info : MemoryInfo α) : Gpu φ ψ α :=
  gpu.prefetchAfter (preFetch epoch.config epoch.tables epoch.parts (memUpdate state.host info)
    (gpu.preFetchArgs (block + 1) (info, epoch.neg (block + 1))))

/-- The next block replaces the one in the buffer. -/
theorem Loaded.trigger {block : Nat} {state : BufferState φ ψ α} {gpu : Gpu φ ψ α}
    {info : MemoryInfo α} (loaded : epoch.Loaded block state gpu info)
    (hasNext : epoch.HasBlock (block + 1)) :
    epoch.Loaded (block + 1) (epoch.trigger state) (epoch.nextGpu block state gpu info)
        (epoch.memoryInfo (block + 1) (some gpu)) ∧
      (epoch.trigger state).host = memUpdate state.host info := by
  have request := loaded.stored hasNext
  have step : epoch.load state =
      (memUpdate state.host info, some (epoch.nextGpu block state gpu info)) := by
    simp [load, loaded.curBlock, loaded.loaded, request, nextGpu]
  refine ⟨⟨?_, ?_, ?_, ?_, ?_⟩, ?_⟩
  · simp [Epoch.trigger, loaded.curBlock]
  · simp [Epoch.trigger, step]
  · rfl
  · rfl
  · intro later
    simp [Epoch.trigger, preNegSample_eq, loaded.curBlock, loaded.loaded, later]
  · simp [Epoch.trigger, step]

end Epoch

end Run

end Dolphin.Buffer
