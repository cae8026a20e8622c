import Dolphin.Memory.Intervals
import Dolphin.Tensor.Ragged

/-!
# Node memory on disk with the simple cache

The memory of a node is a row of `total_memory.bin`: its memory, the time of the
memory, its mailbox and the times of the mails, one after the other. `gen_simple`
says for each block which of its nodes enter the cache and which leave it;
`mem_update` replays this plan block by block and gives the entering nodes the
lowest unused slots.
-/

namespace Dolphin.Memory

open Dolphin.Tensor

/-! ## The plan -/

/-- The tensors `gen_simple` saves, and `simple_max_num`. -/
structure SimplePlan where
  startCacheInd : List Nat
  startFlushInd : List Nat
  endFlushIdx : List Nat
  startCachePtr : List Nat
  startFlushPtr : List Nat
  endFlushPtr : List Nat
  simpleMaxNum : Nat

/-- `IDs[end == i]`. -/
def curEndFlushIdx (intervals : List Interval) (i : Nat) : List Nat :=
  (intervals.filter fun interval => interval.stop == i).map Interval.id

/-- `cur_start_mask`. -/
def curStartMask (intervals : List Interval) (uni : List Nat) (i : Nat) : List Bool :=
  isin uni ((intervals.filter fun interval => interval.start == i).map Interval.id) false

/-- `gen_batch_plan_tensor`: the nodes cached behind block `i`. -/
def genBatchPlan (intervals : List Interval) (i : Nat) : List Nat :=
  (intervals.filter fun interval => interval.start ≤ i ∧ i < interval.stop).map Interval.id

/-- `gen_simple` on the planned intervals, with the largest batch plan. -/
def genSimple (blocks : List (List Nat)) (intervals : List Interval) : SimplePlan :=
  let cacheInds := blocks.zipIdx.map fun block =>
    nonzero (curStartMask intervals block.1 block.2)
  let flushInds := blocks.zipIdx.map fun block =>
    nonzero ((curStartMask intervals block.1 block.2).map (!·))
  let endFlushs := blocks.zipIdx.map fun block => curEndFlushIdx intervals block.2
  { startCacheInd := cacheInds.flatten
    startFlushInd := flushInds.flatten
    endFlushIdx := endFlushs.flatten
    startCachePtr := cumsum 0 (0 :: cacheInds.map List.length)
    startFlushPtr := cumsum 0 (0 :: flushInds.map List.length)
    endFlushPtr := cumsum 0 (0 :: endFlushs.map List.length)
    simpleMaxNum :=
      (List.range blocks.length).foldl
        (fun maxNum i => max maxNum (genBatchPlan intervals i).length) 0 }

/-! ## Rows -/

/-- The sizes of a node's memory. -/
structure MemoryParam where
  dimOut : Nat
  mailboxSize : Nat
  dimEdgeFeat : Nat

/-- `mail_dim`. -/
def MemoryParam.mailDim (param : MemoryParam) : Nat := 2 * param.dimOut + param.dimEdgeFeat

/-- The widths of the four fields. -/
def MemoryParam.widths (param : MemoryParam) : List Nat :=
  [param.dimOut, 1, param.mailboxSize * param.mailDim, param.mailboxSize]

/-- `mem_total_shape`. -/
def MemoryParam.memTotalShape (param : MemoryParam) : Nat := param.widths.sum

/-- `mem_diff_shape`. -/
def MemoryParam.memDiffShape (param : MemoryParam) : List Nat := cumsum 0 (0 :: param.widths)

variable {α : Type} [Inhabited α]

/-- The four fields of one node. -/
@[ext]
structure NodeMem (α : Type) where
  memory : List α
  memoryTs : α
  mailbox : List (List α)
  mailboxTs : List α
  deriving DecidableEq

/-- The fields have the configured sizes. -/
structure NodeMem.Shaped (param : MemoryParam) (mem : NodeMem α) : Prop where
  memory : mem.memory.length = param.dimOut
  mailbox : mem.mailbox.length = param.mailboxSize
  mails : ∀ mail ∈ mem.mailbox, mail.length = param.mailDim
  mailboxTs : mem.mailboxTs.length = param.mailboxSize

/-- The fields of a node, of the configured sizes. -/
abbrev NodeRow (α : Type) [Inhabited α] (param : MemoryParam) :=
  {mem : NodeMem α // mem.Shaped param}

/-- A node's row of `torch.cat(mems, dim = 1)`. -/
def NodeMem.pack (mem : NodeMem α) : List α :=
  mem.memory ++ [mem.memoryTs] ++ mem.mailbox.flatten ++ mem.mailboxTs

/-- `xs.reshape(count, width)`. -/
def reshape (count width : Nat) (xs : List α) : List (List α) :=
  (List.range count).map fun i => (xs.drop (i * width)).take width

/-- The four fields of a row of `mem_total`. -/
def unpack (param : MemoryParam) (total : List α) : NodeMem α where
  memory := raggedRow total param.memDiffShape 0
  memoryTs := (raggedRow total param.memDiffShape 1).getD 0 default
  mailbox := reshape param.mailboxSize param.mailDim (raggedRow total param.memDiffShape 2)
  mailboxTs := raggedRow total param.memDiffShape 3

/-- The zero row of a node. -/
def NodeRow.zeros (α : Type) [Inhabited α] (param : MemoryParam) : NodeRow α param :=
  ⟨⟨List.replicate param.dimOut default, default,
    List.replicate param.mailboxSize (List.replicate param.mailDim default),
    List.replicate param.mailboxSize default⟩,
    ⟨by simp, by simp, by simp +contextual, by simp⟩⟩

/-! ## The file -/

/-- `range(0, len(indices), batch_size)` with the rows of each batch. -/
def batchesOf {β : Type} (batchSize : Nat) : Nat → List β → List (List β)
  | 0, _ => []
  | fuel + 1, writes =>
      if writes.length = 0 then []
      else writes.take batchSize :: batchesOf batchSize fuel (writes.drop batchSize)

/-- The order in which the threads write the batches of one update. -/
structure Schedule (α : Type) where
  order : List (List (Nat × List α)) → List (List (Nat × List α))
  perm : ∀ batches, (order batches).Perm batches

/-- `write_batch`. -/
def writeBatch (disk : List (List α)) (batch : List (Nat × List α)) : List (List α) :=
  batch.foldl (fun rows write => rows.set write.1 write.2) disk

/-- `updateBinDisk(path, values, ind)`, whose batches have 4096 rows. -/
def updateBinDisk (schedule : Schedule α) (disk : List (List α)) (values : List (List α))
    (ind : List Nat) : List (List α) :=
  let writes := ind.zip values
  (schedule.order (batchesOf 4096 writes.length writes)).foldl writeBatch disk

/-! ## The worker's memory -/

/-- The tensors of the memory and the rows of the file. -/
structure DiskMemory (α : Type) where
  memFlag : List Bool
  nodeCacheFlag : List Nat
  nodeCacheUsed : List Bool
  cacheMemory : List (List α)
  disk : List (List α)

/-- `reset_memory`. The file keeps what it has. -/
def resetMemory (param : MemoryParam) (plan : SimplePlan) (numNodes : Nat)
    (disk : List (List α)) : DiskMemory α where
  memFlag := List.replicate numNodes false
  nodeCacheFlag := List.replicate (numNodes + 1) 0
  nodeCacheUsed := true :: List.replicate (plan.simpleMaxNum + 1) false
  cacheMemory :=
    List.replicate (plan.simpleMaxNum + 1) (List.replicate param.memTotalShape default)
  disk := disk

/-- `mem_select(indices)`. Where no row is left to load the assignments are empty. -/
def memSelect (param : MemoryParam) (nodeReorderMap : List Nat) (store : DiskMemory α)
    (indices : List Nat) : List (NodeMem α) :=
  let memTotal := List.replicate indices.length (List.replicate param.memTotalShape default)
  let loadInd := nonzero (gather store.memFlag indices)
  let loadIndCacheFlag := gather store.nodeCacheFlag (gather indices loadInd)
  let loadIndCachedInd := nonzero (loadIndCacheFlag.map (· != 0))
  let memTotal := indexAssign memTotal (gather loadInd loadIndCachedInd)
    (gather store.cacheMemory (gather loadIndCacheFlag loadIndCachedInd))
  let loadInd := gather loadInd (nonzero (loadIndCacheFlag.map (· == 0)))
  let memInd := gather nodeReorderMap (gather indices loadInd)
  let memTotal := indexAssign memTotal loadInd (gather store.disk memInd)
  memTotal.map (unpack param)

/-- The slots for the nodes that enter the cache in a block, after those that
leave it have given up theirs: `node_cache_used` then, and `cache_unused_idx`. -/
def cacheUnusedIdx (plan : SimplePlan) (store : DiskMemory α) (curBlock : Nat) :
    List Bool × List Nat :=
  let curEndFlushIdx := raggedRow plan.endFlushIdx plan.endFlushPtr curBlock
  let curStartCacheIdx := raggedRow plan.startCacheInd plan.startCachePtr curBlock
  let nodeCacheUsed :=
    indexFill store.nodeCacheUsed (gather store.nodeCacheFlag curEndFlushIdx) false
  (nodeCacheUsed, (nonzero (nodeCacheUsed.map (!·))).take curStartCacheIdx.length)

/-- `mem_update(indices, mems)` in block `curBlock = pre_fetch_block - 2`. -/
def memUpdate (plan : SimplePlan) (nodeReorderMap : List Nat) (schedule : Schedule α)
    (store : DiskMemory α) (curBlock : Nat) (indices : List Nat) (mems : List (NodeMem α)) :
    DiskMemory α :=
  if mems.length = 0 then store
  else
    let totalMem := mems.map NodeMem.pack
    let curEndFlushIdx := raggedRow plan.endFlushIdx plan.endFlushPtr curBlock
    let curStartCacheIdx := raggedRow plan.startCacheInd plan.startCachePtr curBlock
    let curStartFlushIdx := raggedRow plan.startFlushInd plan.startFlushPtr curBlock
    let (nodeCacheUsed, cacheUnusedIdx) := cacheUnusedIdx plan store curBlock
    let cacheIdx := gather indices curStartCacheIdx
    { memFlag := indexFill store.memFlag indices true
      nodeCacheFlag :=
        indexAssign (indexFill store.nodeCacheFlag curEndFlushIdx 0) cacheIdx cacheUnusedIdx
      nodeCacheUsed := indexFill nodeCacheUsed cacheUnusedIdx true
      cacheMemory := indexAssign store.cacheMemory cacheUnusedIdx (gather totalMem curStartCacheIdx)
      disk := updateBinDisk schedule store.disk (gather totalMem curStartFlushIdx)
        (gather nodeReorderMap (gather indices curStartFlushIdx)) }

end Dolphin.Memory
