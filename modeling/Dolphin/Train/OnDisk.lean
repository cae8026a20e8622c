import Dolphin.Buffer.DiskEpoch
import Dolphin.Buffer.RowShapes
import Dolphin.Train.FromFiles

/-!
# Training with features and memory on disk

The batch loop with the switches of `basic_conf_disk.json`: the features come from the files
of `gen_part_stream` and `reorder_edge`, and the worker keeps the node memory in a file with a
cache, by the plan of `node_memory.py`. As long as the model leaves a row of `dim_out` entries
for every node it was given, it cannot tell the disk from tables in memory.
-/

namespace Dolphin.Train

open Dolphin.Buffer Dolphin.Cache Dolphin.Eid Dolphin.Graph Dolphin.Memory Dolphin.Sampler
  Dolphin.Semantics Dolphin.Store Dolphin.Tensor

/-- The model leaves a row for every node of its last block: `last_updated_memory` belongs to
`last_updated_nid`. -/
def Answers {φ α : Type} (param : MemoryParam) (input : ModelInput φ α)
    (memory : List (List α)) : Prop :=
  ∀ first ∈ input.mfgs.head?, ∀ last ∈ first.getLast?,
    memory.length = last.srcID.length ∧ ∀ row ∈ memory, row.length = param.dimOut

namespace Training

variable {φ α : Type} [Inhabited φ] [Inhabited α]

/-! ## The loop -/

/-- `Feat_buffer` and a worker with `memory_disk`. -/
structure DiskLoader (φ α : Type) where
  buffer : DiskState φ (List α) α
  blocks : BlockBuffer

/-- The batch loop with the memory on disk. -/
def onDisk (training : Training φ α) (planned : training.Planned) (disk : DiskPlan α) :
    Responder (List Nat) (ModelInput φ α) (List (List α)) (DiskLoader φ α)
      (DiskLoader φ α × Gpu φ (List α) α × Awaiting) where
  observe loader batch := do
    let left ← batch.head?
    let visit ← training.run.trainBatch batch loader.blocks
    let buffer := (training.epoch planned).runBatchDisk disk training.run.useAsync loader.buffer
      left
    let gpu ← buffer.gpu
    let (input, waiting) ← training.prepare (bufferReader gpu) batch visit.negSampleNodes
    some (input, ⟨buffer, visit.buffer⟩, gpu, waiting)
  react := fun (loader, gpu, waiting) memory =>
    let box := training.updateMailBox ⟨training.param, .buffer gpu, fun _ => 0⟩ waiting
      (gpu.edge.getFeat waiting.eid) memory
    { loader with buffer := { loader.buffer with gpu := bufferOf box.store } }

/-- The loop before the first batch, with the rows that the memory file has. -/
def diskStart (training : Training φ α) (planned : training.Planned) (disk : DiskPlan α)
    (rows : List (List α)) : DiskLoader φ α :=
  ⟨(training.epoch planned).initialDisk disk rows, .reset⟩

/-- The memory on disk is prepared for a training run: the plan was made of its blocks, and
the file has a place for each row. -/
structure DiskPrepared (training : Training φ α) (planned : training.Planned)
    (disk : DiskPlan α) (rows : List (List α)) : Prop where
  useDisk : training.config.useDisk = true
  trains : training.config.modelEval = false
  plans : (training.epoch planned).PlansBlocks disk
  sized : rows.length = disk.setup.fileRows
  edgeFeats : ∀ e < training.run.sizes.trainEdgeEnd,
    (training.tables.edgeFeats.getD e default).length = training.param.dimEdgeFeat

variable {training : Training φ α} {planned : training.Planned} {disk : DiskPlan α}
  {rows : List (List α)}

/-! ## The updates of a batch -/

omit [Inhabited φ] [Inhabited α] in
/-- What is left of a batch for its updates. -/
theorem prepare_waits {reader : Reader φ α} {block : Nat} {batch : List Nat}
    {input : ModelInput φ α} {waiting : Awaiting}
    (prepared : training.prepare reader batch (training.drawn block batch) =
      some (input, waiting)) :
    training.Waits block batch waiting ∧ ∃ first last, input.mfgs.head? = some first ∧
      first.getLast? = some last ∧ last.srcID = waiting.nid := by
  obtain ⟨_, -, prepared⟩ := Option.bind_eq_some_iff.mp prepared
  obtain ⟨rets, sampled, prepared⟩ := Option.bind_eq_some_iff.mp prepared
  obtain ⟨first, head, prepared⟩ := Option.bind_eq_some_iff.mp prepared
  obtain ⟨last, isLast, made⟩ := Option.bind_eq_some_iff.mp prepared
  obtain ⟨rfl, rfl⟩ := Prod.mk.inj (Option.some.inj made)
  refine ⟨⟨rfl, rfl, rfl, ?_⟩, first, last, head, isLast, rfl⟩
  obtain ⟨ret, member, rfl⟩ := List.mem_map.mp (List.mem_reverse.mp (List.mem_of_mem_head? head))
  obtain rfl : ret.genBlock = last := Option.some.inj isLast
  exact sampleLayers_prefix sampled ret member

omit [Inhabited φ] in
/-- The updates of a batch write rows of the configured sizes. -/
theorem calls_shaped {block : Nat} {batch : List Nat} {waiting : Awaiting}
    {edgeFeats memory : List (List α)} (rooms : batch.length * 2 ≤ memory.length)
    (widths : ∀ row ∈ memory, row.length = training.param.dimOut)
    (aligned : edgeFeats.length = batch.length)
    (feats : ∀ row ∈ edgeFeats, row.length = training.param.dimEdgeFeat) :
    ∀ call ∈ training.calls block batch waiting edgeFeats memory,
      call.Shaped training.param := by
  let events := training.edgeBatch block batch
  have count : events.src.length = batch.length := gather_length _ _
  have srcs : ∀ row ∈ memory.take events.src.length, row.length = training.param.dimOut :=
    fun row member => widths row (List.mem_of_mem_take member)
  have dsts : ∀ row ∈ (memory.take (events.src.length * 2)).drop events.src.length,
      row.length = training.param.dimOut :=
    fun row member => widths row (List.mem_of_mem_take (List.mem_of_mem_drop member))
  have srcCount : (memory.take events.src.length).length = events.src.length := by
    rw [List.length_take]
    omega
  have dstCount : ((memory.take (events.src.length * 2)).drop events.src.length).length =
      events.src.length := by
    rw [List.length_drop, List.length_take]
    omega
  have featCount : edgeFeats.length = events.src.length := aligned.trans count.symm
  refine List.forall_mem_cons.mpr ⟨fun mail member => ?_, List.forall_mem_singleton.mpr
    fun row member => ?_⟩
  · have places : ∀ i ∈ lastOccurrences events.mailNodes, i < (interleave
        (mailRows training.param (memory.take events.src.length)
          ((memory.take (events.src.length * 2)).drop events.src.length) edgeFeats)
        (mailRows training.param ((memory.take (events.src.length * 2)).drop events.src.length)
          (memory.take events.src.length) edgeFeats)).length := by
      intro i place
      have inNodes := lastOccurrences_lt place
      rw [EdgeBatch.mailNodes, interleave_length events.dstSized] at inNodes
      rw [interleave_length ((mailRows_count dstCount srcCount featCount).trans
        (mailRows_count srcCount dstCount featCount).symm),
        mailRows_count srcCount dstCount featCount]
      exact inNodes
    rcases mem_interleave (gather_subset places member) with src | dst
    · exact mailRows_width srcs dsts (fun _ => feats) mail src
    · exact mailRows_width dsts srcs (fun _ => feats) mail dst
  · refine widths row (List.mem_of_mem_take (gather_subset (fun i place => ?_) member))
    have inNodes : i < events.src.length * 2 := events.nodes_length ▸ lastOccurrences_lt place
    change i < (memory.take (events.src.length * 2)).length
    rw [List.length_take]
    omega

/-! ## The buffer at a batch -/

/-- Behind the first block an empty buffer stays empty. -/
theorem trigger_empty {epoch : Epoch φ (List α) α} {state : BufferState φ (List α) α}
    (empty : state.gpu = none) (later : state.curBlock ≠ 0) : (epoch.trigger state).gpu = none := by
  simp only [Epoch.trigger, Epoch.load, if_neg later, empty]

/-- What is in the buffer when a batch of a block comes. -/
inductive Arrives (planned : training.Planned) (block left : Nat) (loader : Loader φ α)
    (box : MailBox φ (List α) α) : Prop where
  | first (opens : left % training.run.sizes.preSampleSize = 0)
      (start : loader.buffer.curBlock = 0) (empty : loader.buffer.gpu = none)
  | next {before : Nat} (opens : left % training.run.sizes.preSampleSize = 0)
      (behind : block = before + 1) (inBlock : InBlock planned before loader box)
  | inside (later : ¬left % training.run.sizes.preSampleSize = 0)

omit [Inhabited φ] [Inhabited α] in
/-- The first batch of a block is one of its batches. -/
theorem Formed.opening {block : Nat} {blocks : List (List (List Nat))} {task : List Nat}
    {tasks : List (List Nat)} (formed : training.Formed block blocks)
    (remaining : task :: tasks = blocks.flatten) :
    ∃ left, task.head? = some left ∧ left % training.run.sizes.preSampleSize = 0 ∧
      ∀ e ∈ task, e ∈ blockEdges training.run.stream training.run.sizes.trainEdgeEnd block := by
  cases blocks with
  | nil => cases remaining
  | cons batches blocks =>
      obtain ⟨⟨⟨first, rest, rfl, opens, -⟩, -⟩, perm⟩ := formed 0 batches rfl
      obtain ⟨rfl, -⟩ : task = first ∧ tasks = rest ++ blocks.flatten := by
        simpa using remaining
      obtain ⟨left, head, multiple⟩ := opens
      refine ⟨left, head, training.sized.preSampleSize ▸ multiple, fun e inBatch => ?_⟩
      exact perm.mem_iff.mp (List.mem_flatten_of_mem List.mem_cons_self inBatch)

omit [Inhabited φ] [Inhabited α] in
/-- The batches of a block have a place in the run. -/
theorem hasBlock_of_head (planned : training.Planned) {block left : Nat} {batch : List Nat}
    (edges : ∀ e ∈ batch, e ∈ blockEdges training.run.stream training.run.sizes.trainEdgeEnd block)
    (head : batch.head? = some left) : (training.epoch planned).HasBlock block := by
  obtain ⟨low, high, -⟩ := training.mem_block (edges left (List.mem_of_mem_head? head))
  exact low.trans_lt (high.trans_le (Nat.min_le_left _ _))

/-- A run that is related to the one on tables comes to its next batch. -/
theorem Related.arrives {planned : training.Planned} {task : List Nat} {tasks : List (List Nat)}
    {loader : Loader φ α} {box : MailBox φ (List α) α}
    (related : Related planned (task :: tasks) loader box) :
    ∃ block left, task.head? = some left ∧
      (∀ e ∈ task,
        e ∈ blockEdges training.run.stream training.run.sizes.trainEdgeEnd block) ∧
      Arrives planned block left loader box := by
  cases related with
  | @opening block blocks remaining joined formed atOpening empty =>
      obtain ⟨left, head, opens, edges⟩ := formed.opening remaining
      refine ⟨block, left, head, edges, .first opens ?_ empty⟩
      obtain ⟨gpu, info, rows, tracks, -⟩ := atOpening.tracks (hasBlock_of_head planned edges head)
      by_contra later
      have isLoaded := tracks.loaded.loaded
      rw [trigger_empty empty later] at isLoaded
      cases isLoaded
  | @inside block rest blocks remaining joined nonempty later edges formed inBlock =>
      cases rest with
      | nil =>
          obtain ⟨left, head, opens, edges⟩ := formed.opening remaining
          exact ⟨block + 1, left, head, edges, .next opens rfl inBlock⟩
      | cons batch rest =>
          obtain ⟨rfl, -⟩ : task = batch ∧ tasks = rest ++ blocks.flatten := by
            simpa using remaining
          have filled := List.head?_eq_some_head (nonempty task List.mem_cons_self)
          refine ⟨block, _, filled, edges task List.mem_cons_self, .inside fun multiple => ?_⟩
          rw [training.sized.preSampleSize] at multiple
          exact later task List.mem_cons_self ⟨_, filled, multiple⟩

/-- `run_batch` on disk beside `run_batch`. -/
theorem Arrives.runBatch {block left : Nat} {loader : Loader φ α} {box : MailBox φ (List α) α}
    (arrives : Arrives planned block left loader box)
    (prepared : DiskPrepared training planned disk rows)
    (hasBlock : (training.epoch planned).HasBlock block) {useAsync : Bool}
    {state : DiskState φ (List α) α}
    (onDisk : (training.epoch planned).OnDisk disk useAsync state loader.buffer)
    {table : Nat → NodeMem α} (own : box = freshBox training.param (.tables table))
    (shaped : ∀ v, (table v).Shaped training.param) :
    (training.epoch planned).OnDisk disk useAsync
      ((training.epoch planned).runBatchDisk disk useAsync state left)
      ((training.epoch planned).runBatch loader.buffer left) := by
  let epoch := training.epoch planned
  have triggers (opens : left % epoch.sizes.preSampleSize = 0) :
      epoch.runBatchDisk disk useAsync state left = epoch.triggerDisk disk useAsync state ∧
        epoch.runBatch loader.buffer left = epoch.trigger loader.buffer :=
    ⟨if_pos opens, if_pos opens⟩
  cases arrives with
  | first opens start empty =>
      rw [(triggers opens).1, (triggers opens).2]
      exact onDisk.first prepared.useDisk start empty
  | next opens behind inBlock =>
      rw [(triggers opens).1, (triggers opens).2]
      obtain ⟨gpu, info, rows', tracks, same⟩ := inBlock.tracks
      obtain rfl : table = rows' := by
        simpa [freshBox] using own.symm.trans same
      exact onDisk.next prepared.plans prepared.trains (rootsInMaps planned) (behind ▸ hasBlock)
        tracks shaped
  | inside later =>
      have stays : epoch.runBatchDisk disk useAsync state left = state ∧
          epoch.runBatch loader.buffer left = loader.buffer := ⟨if_neg later, if_neg later⟩
      rw [stays.1, stays.2]
      exact onDisk

/-! ## A turn -/

/-- A turn of the loop with the buffer, in its parts. -/
theorem observe_parts {loader after : Loader φ α} {batch : List Nat} {input : ModelInput φ α}
    {gpu : Gpu φ (List α) α} {waiting : Awaiting}
    (observed : (training.buffered planned).observe loader batch =
      some (input, after, gpu, waiting)) :
    ∃ left visit, batch.head? = some left ∧
      training.run.trainBatch batch loader.blocks = some visit ∧
      after = ⟨(training.epoch planned).runBatch loader.buffer left, visit.buffer⟩ ∧
      after.buffer.gpu = some gpu ∧
      training.prepare (bufferReader gpu) batch visit.negSampleNodes = some (input, waiting) := by
  obtain ⟨left, head, observed⟩ := Option.bind_eq_some_iff.mp observed
  obtain ⟨visit, visited, observed⟩ := Option.bind_eq_some_iff.mp observed
  obtain ⟨gpu', loaded, observed⟩ := Option.bind_eq_some_iff.mp observed
  obtain ⟨⟨input', waiting'⟩, ready, made⟩ := Option.bind_eq_some_iff.mp observed
  cases made
  exact ⟨left, visit, head, visited, rfl, loaded, ready⟩

/-- A turn of the loop on tables. -/
theorem observe_plain_waits {block : Nat} {box box' : MailBox φ (List α) α} {batch : List Nat}
    {input : ModelInput φ α} {waiting : Awaiting}
    (edges : ∀ e ∈ batch, e ∈ blockEdges training.run.stream training.run.sizes.trainEdgeEnd block)
    (observed : training.plain.observe box batch = some (input, box', waiting)) :
    box' = box ∧ training.Waits block batch waiting ∧ ∃ first last,
      input.mfgs.head? = some first ∧ first.getLast? = some last ∧ last.srcID = waiting.nid := by
  obtain ⟨neg, negatives, observed⟩ := Option.bind_eq_some_iff.mp observed
  obtain ⟨⟨input', waiting'⟩, ready, made⟩ := Option.bind_eq_some_iff.mp observed
  cases made
  have drawn : (batch.mapM fun eid => (training.run.negatives (eid / 60000))[
      eid % training.run.sizes.preSampleSize]?) = some (training.drawn block batch) := by
    refine training.mapM_negatives edges fun e member => ?_
    rw [(training.mem_block (edges e member)).2.2]
  obtain rfl := Option.some.inj (negatives.symm.trans drawn)
  exact ⟨rfl, prepare_waits ready⟩

/-- The run with the memory on disk beside the one with the buffer and the one on tables. -/
structure Beside (planned : training.Planned) (disk : DiskPlan α) (state : DiskLoader φ α)
    (loader : Loader φ α) (box : MailBox φ (List α) α) : Prop where
  buffer : (training.epoch planned).OnDisk disk training.run.useAsync state.buffer loader.buffer
  blocks : state.blocks = loader.blocks
  rows : ∃ rows, box = freshBox training.param (.tables rows) ∧
    ∀ v, (rows v).Shaped training.param

/-- The model is given the same with the memory on disk. -/
theorem Beside.observe {state : DiskLoader φ α} {loader after : Loader φ α}
    {box : MailBox φ (List α) α} (beside : Beside planned disk state loader box)
    (prepared : DiskPrepared training planned disk rows) {task : List Nat}
    {tasks : List (List Nat)} (related : Related planned (task :: tasks) loader box)
    {input : ModelInput φ α} {gpu : Gpu φ (List α) α} {waiting : Awaiting}
    (observed : (training.buffered planned).observe loader task =
      some (input, after, gpu, waiting)) :
    ∃ next, (training.onDisk planned disk).observe state task = some (input, next, gpu, waiting) ∧
      (training.epoch planned).OnDisk disk training.run.useAsync next.buffer after.buffer ∧
      next.blocks = after.blocks := by
  obtain ⟨left, visit, head, visited, rfl, loaded, ready⟩ := observe_parts observed
  obtain ⟨block, left', head', edges, arrives⟩ := related.arrives
  obtain rfl := Option.some.inj (head.symm.trans head')
  obtain ⟨table, own, shaped⟩ := beside.rows
  have buffer := arrives.runBatch prepared (hasBlock_of_head planned edges head) beside.buffer own
    shaped
  refine ⟨⟨(training.epoch planned).runBatchDisk disk training.run.useAsync state.buffer left,
    visit.buffer⟩, ?_, buffer, rfl⟩
  simp only [onDisk, head, beside.blocks, visited, buffer.gpu.trans loaded, ready,
    Option.bind_eq_bind, Option.bind_some]

/-- What the updates leave in the tables. -/
theorem react_shaped (single : training.param.mailboxSize ≤ 1)
    (prepared : DiskPrepared training planned disk rows) {block : Nat} {batch : List Nat}
    (edges : ∀ e ∈ batch, e ∈ blockEdges training.run.stream training.run.sizes.trainEdgeEnd block)
    {waiting : Awaiting} (waits : training.Waits block batch waiting) {memory : List (List α)}
    (answered : memory.length = waiting.nid.length)
    (widths : ∀ row ∈ memory, row.length = training.param.dimOut) {table : Nat → NodeMem α}
    (shaped : ∀ v, (table v).Shaped training.param) :
    ∃ after, training.plain.react (freshBox training.param (.tables table), waiting) memory =
        freshBox training.param (.tables after) ∧ ∀ v, (after v).Shaped training.param := by
  let feats := gather training.tables.edgeFeats waiting.eid
  have makes := waits.updates single feats memory
  refine ⟨_, makes.tables table, tableUpdates_shaped (calls_shaped ?_ widths ?_ ?_) shaped⟩
  · -- the nodes of the answer start with the roots, which are three for each edge
    have roots := waits.nid.length_le
    rw [waits.rootNodes, List.length_append, List.length_append, gather_length, gather_length]
      at roots
    omega
  · rw [gather_length, waits.eid]
  · intro row member
    obtain ⟨e, inBatch, rfl⟩ := List.mem_map.mp member
    obtain ⟨-, before, -⟩ := training.mem_block (edges e (waits.eid ▸ inBatch))
    exact prepared.edgeFeats e (before.trans_le (Nat.min_le_left _ _))

/-! ## The run -/

/-- The run with the memory on disk and the one on tables, with the batches that remain. -/
def RelatedOnDisk (planned : training.Planned) (disk : DiskPlan α) (tasks : List (List Nat))
    (state : DiskLoader φ α) (box : MailBox φ (List α) α) : Prop :=
  ∃ loader, Related planned tasks loader box ∧ Beside planned disk state loader box

/-- The two runs stay related while the model answers with a row for every node. -/
theorem simulationOnDisk {windows : List Window}
    (stored : (training.epoch planned).FeaturesHeld windows)
    (prepared : DiskPrepared training planned disk rows)
    (single : training.param.mailboxSize ≤ 1) :
    Responder.SimulationOn (Answers training.param) (training.onDisk planned disk) training.plain
      (RelatedOnDisk planned disk) where
  turn := by
    rintro task tasks state box ⟨loader, related, beside⟩
    obtain ⟨input, ⟨after, gpu, waiting⟩, ⟨box', waiting'⟩, observed, plain, next⟩ :=
      (simulation planned stored single).turn related
    obtain ⟨block, left, head, edges, -⟩ := related.arrives
    obtain ⟨table, rfl, shaped⟩ := beside.rows
    obtain ⟨rfl, waits, first, last, isFirst, isLast, nodes⟩ := observe_plain_waits edges plain
    obtain ⟨state', seen, buffer, blocks⟩ := beside.observe prepared related observed
    refine ⟨input, _, _, seen, plain, fun memory answers => ⟨_, next memory, ?_⟩⟩
    obtain ⟨count, widths⟩ := answers first isFirst last isLast
    exact
      { buffer := buffer.withGpu _
        blocks := blocks
        rows := react_shaped single prepared edges waits (nodes ▸ count) widths shaped }

/-- The lists of `gen_part` for a run on nodes below a number. -/
def blockInfo (training : Training φ α) (planned : training.Planned) {numNodes : Nat}
    (src : ∀ v ∈ training.run.stream.src, v < numNodes)
    (dst : ∀ v ∈ training.run.stream.dst, v < numNodes) : BlockInfo :=
  (training.epoch planned).blockInfo src dst

end Training

/-! ## A dataset with its memory on disk -/

namespace Dataset

variable {φ α : Type} [Inhabited φ] {dataset : Dataset} {features : dataset.Features}
  {cacheNid cacheEid : Nat → List Nat} {config : Config} {param : MemoryParam}
  {readNode : List UInt8 → φ} {readEdge : List UInt8 → List α} {timestamp : Nat → α}

/-- A plan of the lists of a run prepares it, whatever the file has. -/
theorem fromDisk_prepared [Inhabited α] {disk : DiskPlan α} {rows : List (List α)}
    (useDisk : config.useDisk = true) (trains : config.modelEval = false)
    (info : disk.setup.info =
      (fromDisk features cacheNid cacheEid config param readNode readEdge timestamp).blockInfo
        fromDisk_planned fromDisk_nodes.1 fromDisk_nodes.2)
    (sized : rows.length = disk.setup.fileRows)
    (widths : ∀ row ∈ features.edge.rows, (readEdge row).length = param.dimEdgeFeat) :
    Training.DiskPrepared
      (fromDisk features cacheNid cacheEid config param readNode readEdge timestamp)
      fromDisk_planned disk rows where
  useDisk := useDisk
  trains := trains
  plans := by
    rw [Epoch.PlansBlocks, info]
    exact Epoch.genPart_getD _
  sized := sized
  edgeFeats := by
    intro e known
    have inRows : e < features.edge.rows.length :=
      (Nat.lt_of_lt_of_le known dataset.inStream).trans_eq features.edgeRows.symm
    change ((features.edge.rows.map readEdge).getD e default).length = param.dimEdgeFeat
    rw [List.getD_eq_getElem?_getD, List.getElem?_map, List.getElem?_eq_getElem inRows]
    exact widths _ (List.getElem_mem inRows)

end Dataset

namespace Training

/-! ## Three blocks with their memory on disk -/

/-- A cache of one row, and a row of the file for each node. -/
def threeBlocksMemory : MemorySetup where
  info := threeBlocksDisk.blockInfo threeBlocksDisk_planned Dataset.fromDisk_nodes.1
    Dataset.fromDisk_nodes.2
  limit := 1
  weightOrder := List.range _
  order := List.Perm.refl _
  nodeReorderMap := [1, 0, 4, 2, 3]
  fileRows := 5
  inFile := show ∀ v < 5, [1, 0, 4, 2, 3].getD v 0 < 5 by decide
  injective := show ∀ v < 5, ∀ w < 5, [1, 0, 4, 2, 3].getD v 0 = [1, 0, 4, 2, 3].getD w 0 → v = w by
    decide

/-- The writes reach the file in order. -/
def threeBlocksDiskPlan : DiskPlan Nat :=
  ⟨threeBlocksMemory, fun _ => ⟨id, fun _ => List.Perm.refl _⟩⟩

/-- A file of other entries. -/
def otherRows : List (List Nat) := List.replicate 5 (List.replicate 6 9)

theorem threeBlocksDisk_prepared :
    DiskPrepared threeBlocksDisk threeBlocksDisk_planned threeBlocksDiskPlan otherRows :=
  Dataset.fromDisk_prepared rfl rfl rfl rfl (countingRows_lastBytes 122000)

/-- A model that answers with the number of batches it has seen. -/
def countingModel (inputs : List (ModelInput Nat Nat)) : List (List Nat) :=
  let nodes := do
    let input ← inputs.getLast?
    let first ← input.mfgs.head?
    let last ← first.getLast?
    some last.srcID
  (nodes.getD []).map fun _ => [inputs.length]

theorem countingModel_obeys {param : MemoryParam} (one : param.dimOut = 1) :
    Responder.Obeys (Answers param) countingModel := by
  intro seen input first isFirst last isLast
  have nodes : countingModel (seen ++ [input]) =
      last.srcID.map fun _ => [(seen ++ [input]).length] := by
    simp only [countingModel, List.getLast?_concat, Option.mem_def.mp isFirst,
      Option.mem_def.mp isLast, Option.bind_eq_bind, Option.bind_some, Option.getD_some]
  rw [nodes]
  refine ⟨List.length_map _, fun row member => ?_⟩
  obtain ⟨v, -, rfl⟩ := List.mem_map.mp member
  exact one.symm

end Training

end Dolphin.Train
