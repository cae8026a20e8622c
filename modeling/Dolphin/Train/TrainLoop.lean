import Dolphin.Buffer.MailBox
import Dolphin.Buffer.Tracking
import Dolphin.Eid.BatchLoop
import Dolphin.Sampler.BatchCoverage
import Dolphin.Semantics.Feedback

/-!
# The training loop with the model

A turn of the batch loop of `train.py`. `run_batch` brings the block of the batch into the
buffer, the batch is sampled, and `prepare_input` and `prep_input_mails` read what the
model needs; behind the model the mailbox and the memory of the batch's nodes are updated.
`buffered` reads and writes the tensors of `Feat_buffer`, `plain` tables for all nodes and
edges, as the same functions do when there is no buffer.

The model with its loss and its optimizer is a controller: what it leaves in
`last_updated_memory` may depend on everything it has been given so far. One history,
`deliver_to` set to `self`, `combine_neighs` off, and a model with a graph layer.
-/

namespace Dolphin.Train

open Dolphin.Buffer Dolphin.Graph Dolphin.Memory Dolphin.Sampler Dolphin.Semantics Dolphin.Tensor

/-! ## The inputs of the model -/

/-- `mfgs` with the data that is read for them. -/
structure ModelInput (φ α : Type) where
  mfgs : List (List DglBlock)
  /-- `srcdata['h']` of the first blocks. -/
  h : List (List φ)
  /-- `edata['f']`, of blocks with edges only. -/
  f : List (List (Option (List (List α))))
  /-- `mem`, `mem_ts`, `mem_input` and `mail_ts` of the first blocks. -/
  mails : List (List (NodeMem α))

/-- How rows are read by id. -/
structure Reader (φ α : Type) where
  nFeat : List Nat → List φ
  eFeat : List Nat → List (List α)
  mails : List Nat → List (NodeMem α)

section Inputs

variable {φ α : Type} [Inhabited φ] [Inhabited α]

/-- `get_n_feat`, `get_e_feat` and `input_mails`. -/
def bufferReader (gpu : Gpu φ (List α) α) : Reader φ α :=
  ⟨gpu.node.getFeat, gpu.edge.getFeat, gpu.getMails⟩

/-- The tables indexed with the ids. -/
def tableReader (tables : FeatTables φ (List α)) (rows : Nat → NodeMem α) : Reader φ α :=
  ⟨gather tables.nodeFeats, gather tables.edgeFeats, List.map rows⟩

omit [Inhabited φ] [Inhabited α] in
/-- `prepare_input` and `prep_input_mails(mfgs[0])`. -/
def Reader.prepareInput (reader : Reader φ α) (first : List DglBlock)
    (mfgs : List (List DglBlock)) : ModelInput φ α where
  mfgs := mfgs
  h := first.map fun b => reader.nFeat b.srcID
  f := mfgs.map fun mfg => mfg.map fun b =>
    if b.numSrcNodes > b.numDstNodes then some (reader.eFeat b.edgeID) else none
  mails := first.map fun b => reader.mails b.srcID

end Inputs

/-! ## Turns -/

/-- What the updates of a batch need besides `last_updated_memory`: `eid`, `root_nodes_np`,
`ts`, `last_updated_nid` and `last_updated_ts`. -/
structure Awaiting where
  eid : List Nat
  rootNodes : List Nat
  ts : List Nat
  nid : List Nat
  nidTs : List Nat

/-- A training run with everything it reads. -/
structure Training (φ α : Type) where
  run : Eid.TrainRun
  sized : run.Sized
  config : Config
  param : MemoryParam
  g : TemporalCsr
  sorted : ∀ row, g.SortedRow row
  fanNums : List Nat
  layered : fanNums ≠ []
  /-- The order of the threads and the edges that `cut_zombie` picks, batch by batch. -/
  layers : List Nat → List (Nat × LayerChoice)
  fanouts : ∀ batch, (layers batch).map Prod.fst = fanNums
  tables : FeatTables φ (List α)
  parts : Nat → BlockPart φ (List α)
  /-- `astype(np.float32)`. -/
  timestamp : Nat → α
  shareNodeNum : Nat
  shareEdgeNum : Nat
  nonempty : 0 < run.sizes.trainEdgeEnd
  inStream : run.sizes.trainEdgeEnd ≤ run.stream.eid.length

namespace Training

variable {φ α : Type} (training : Training φ α)

/-- `neg_info` of a block: what `pre_neg_sample` samples for its negatives. -/
def negInfo (block : Nat) : NegInfo :=
  let neg := preNegSample training.g training.fanNums training.run.stream training.run.sizes block
    (training.run.negatives block)
  ⟨.ofList neg.1, .ofList neg.2⟩

/-- The part files were made for this run: they have the maps of its blocks, and the maps
with the negatives fit the shared tensors. -/
structure Planned : Prop where
  nodes : ∀ block, (training.parts block).node.posMap.ids =
    (genPartMaps training.g training.fanNums training.run.stream training.run.sizes block).1
  edges : ∀ block, (training.parts block).edge.posMap.ids =
    (genPartMaps training.g training.fanNums training.run.stream training.run.sizes block).2
  nodeFits : ∀ block, (mergeMap (training.parts block).node.posMap.ids
    (training.negInfo block).nodes.ids).length ≤ training.shareNodeNum
  edgeFits : ∀ block, (mergeMap (training.parts block).edge.posMap.ids
    (training.negInfo block).eids.ids).length ≤ training.shareEdgeNum

theorem divides : training.run.sizes.trainBatchSize ∣ training.run.sizes.preSampleSize := by
  have whole := training.sized.batchSize
  rw [BlockConfig.batchSize] at whole
  rw [training.sized.preSampleSize, ← whole]
  exact Nat.dvd_mul_right _ _

/-- The epoch of the run. The updates are left to the batch loop. -/
def epoch (planned : training.Planned) : Epoch φ (List α) α where
  config := training.config
  param := training.param
  sizes := training.run.sizes
  src := training.run.stream.src
  dst := training.run.stream.dst
  tables := training.tables
  parts := training.parts
  neg := training.negInfo
  updates := fun _ => []
  shareNodeNum := training.shareNodeNum
  shareEdgeNum := training.shareEdgeNum
  sized := by
    rw [training.sized.preSampleSize]
    exact Nat.succ_pos _
  nonempty := training.nonempty
  divides := training.divides
  nodeFits := planned.nodeFits
  edgeFits := planned.edgeFits

/-- A batch up to the model: its roots are sampled, and what the sample needs is read. -/
def prepare (reader : Reader φ α) (batch neg : List Nat) :
    Option (ModelInput φ α × Awaiting) := do
  guard (Eid.Concatenates batch)
  let stream := training.run.stream
  let times := gather stream.time batch
  let rootNodes := gather stream.src batch ++ gather stream.dst batch ++ neg
  let ts := times ++ times ++ times
  let ret ← sampleLayers training.g (training.layers batch) rootNodes ts
  let mfgs := genMfgs ret
  let first ← mfgs.head?
  let last ← first.getLast?
  some (reader.prepareInput first mfgs, ⟨batch, rootNodes, ts, last.srcID, last.srcTs⟩)

variable [Inhabited α]

/-- The updates of a batch behind the model. -/
def updateMailBox (box : MailBox φ (List α) α) (waiting : Awaiting)
    (memEdgeFeats memory : List (List α)) : MailBox φ (List α) α :=
  let box := box.updateMailbox memory waiting.rootNodes (waiting.ts.map training.timestamp)
    memEdgeFeats 1
  box.updateMemory (some waiting.nid) memory waiting.rootNodes
    (waiting.nidTs.map training.timestamp) 1

/-! ## With the buffer -/

/-- `Feat_buffer` with its worker: the tensors, and the attributes that follow the
blocks. -/
structure Loader (φ α : Type) where
  buffer : BufferState φ (List α) α
  blocks : Eid.BlockBuffer

/-- The tensors behind a mailbox that writes to the buffer. -/
def bufferOf : RowStore φ (List α) α → Option (Gpu φ (List α) α)
  | .buffer gpu => some gpu
  | _ => none

variable [Inhabited φ]

/-- The batch loop with the buffer. The mailbox keeps its first positions, as the buffer
does not use them. -/
def buffered (planned : training.Planned) :
    Responder (List Nat) (ModelInput φ α) (List (List α)) (Loader φ α)
      (Loader φ α × Gpu φ (List α) α × Awaiting) where
  observe loader batch := do
    let left ← batch.head?
    let visit ← training.run.trainBatch batch loader.blocks
    let buffer := (training.epoch planned).runBatch loader.buffer left
    let gpu ← buffer.gpu
    let (input, waiting) ← training.prepare (bufferReader gpu) batch visit.negSampleNodes
    some (input, ⟨buffer, visit.buffer⟩, gpu, waiting)
  react := fun (loader, gpu, waiting) memory =>
    let box := training.updateMailBox ⟨training.param, .buffer gpu, fun _ => 0⟩ waiting
      (gpu.edge.getFeat waiting.eid) memory
    { loader with buffer := { loader.buffer with gpu := bufferOf box.store } }

/-- The loop before the first batch. -/
def start (planned : training.Planned) : Loader φ α :=
  ⟨(training.epoch planned).initial, .reset⟩

/-! ## With tables for all nodes and edges -/

/-- The batch loop without a buffer: an edge has the negative that was drawn for it. -/
def plain : Responder (List Nat) (ModelInput φ α) (List (List α)) (MailBox φ (List α) α)
    (MailBox φ (List α) α × Awaiting) where
  observe box batch := do
    let neg ← batch.mapM fun eid =>
      (training.run.negatives (eid / 60000))[eid % training.run.sizes.preSampleSize]?
    let (input, waiting) ← training.prepare (tableReader training.tables box.store.row) batch neg
    some (input, box, waiting)
  react := fun (box, waiting) memory =>
    training.updateMailBox box waiting (gather training.tables.edgeFeats waiting.eid) memory

/-- A mailbox after `reset`. -/
def plainStart : MailBox φ (List α) α :=
  ⟨training.param, .tables fun _ => (NodeRow.zeros α training.param).1, fun _ => 0⟩

end Training

end Dolphin.Train
