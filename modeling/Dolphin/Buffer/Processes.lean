import Dolphin.Buffer.SharedTensors

/-!
# The two processes

The worker's `run` loop takes the requests from one pipe, calls the function that is
named and answers `pre_fetch` on a pipe of its own, everything else on the request
pipe. The main process sends requests in `run_batch` and `refresh_memory`; with
`use_async` it asks for the next block as soon as the current one is loaded, without
it when the next block begins. The bucket caches that the first request hands over
are part of what is given for a block.

`cur_block` counts the blocks that have begun, so the branches of `run_batch` are
known for every batch, and the main process is a program for each of the two
settings.
-/

namespace Dolphin.Buffer

open Dolphin.Memory Dolphin.Sampler Dolphin.Semantics Dolphin.Tensor

/-- The state of the worker. -/
structure Worker (φ ψ α : Type) where
  /-- `block_num`: the block that the caches and the valid edges have been brought to. -/
  blockNum : Nat
  /-- `memory`, `memory_ts`, `mailbox` and `mailbox_ts`. -/
  host : Nat → NodeMem α
  prefetchRes : PreFetched φ ψ α
  shared : SharedTensors φ ψ α

/-- The requests: a function and its arguments. -/
inductive Request (α : Type) where
  | initBucketCache
  | selectNodeFeats (indices : List Nat)
  | selectEdgeFeats (indices : List Nat)
  | selectMemory (indices : List Nat)
  | updateMemory (indices : List Nat)
  | preFetch (args : PreFetchArgs α)

/-- `prefetch_conn` and `prefetch_only_conn`. -/
inductive Pipe where
  | conn
  | onlyConn
  deriving DecidableEq

/-- The pipe on which `run` answers. -/
def Request.reply {α : Type} : Request α → Pipe
  | .preFetch _ => .onlyConn
  | _ => .conn

/-- The main process: the buffer, `memory_info` of the running `run_batch`, the stored
request, and the buffer as each batch has seen it. -/
structure Main (φ ψ α : Type) where
  curBlock : Nat
  gpu : Option (Gpu φ ψ α)
  memoryInfo : MemoryInfo α
  stored : Option (MemoryInfo α × NegInfo)
  seen : List (Option (Gpu φ ψ α))

instance {φ ψ α : Type} : Inhabited (Gpu φ ψ α) := ⟨⟨⟨[], []⟩, ⟨[], []⟩, []⟩⟩

instance : Inhabited NegInfo := ⟨⟨.ofList [], .ofList []⟩⟩

/-- The buffer, which is there once a block is loaded. -/
def Main.buffer {φ ψ α : Type} (main : Main φ ψ α) : Gpu φ ψ α := main.gpu.getD default

/-- A change of the buffer. -/
def Main.change {φ ψ α : Type} (main : Main φ ψ α) (f : Gpu φ ψ α → Gpu φ ψ α) : Main φ ψ α :=
  { main with gpu := main.gpu.map f }

/-- A change of the shared tensors. -/
def Worker.write {φ ψ α : Type} (worker : Worker φ ψ α)
    (f : SharedTensors φ ψ α → SharedTensors φ ψ α) : Worker φ ψ α :=
  { worker with shared := f worker.shared }

/-- A command of the main process. -/
abbrev MainCommand (φ ψ α : Type) := Command (Main φ ψ α) (Worker φ ψ α) (Request α) Pipe

namespace Epoch

variable {φ ψ α : Type} [Inhabited φ] [Inhabited ψ] [Inhabited α] (epoch : Epoch φ ψ α)

/-! ## The worker -/

/-- The steps in which a request is handled. -/
def handle : Request α → List (Worker φ ψ α → Worker φ ψ α)
  | .initBucketCache => []
  | .selectNodeFeats indices =>
      [fun worker => worker.write fun shared =>
        { shared with tmpNodeFeats := gather epoch.tables.nodeFeats indices }]
  | .selectEdgeFeats indices =>
      [fun worker => worker.write fun shared =>
        { shared with
          tmpEdgeFeats := selectEdge epoch.config epoch.tables
            (epoch.parts worker.blockNum).valid indices }]
  | .selectMemory indices =>
      [fun worker => worker.write fun shared =>
        { shared with tmpMemory := indices.map worker.host }]
  | .updateMemory indices =>
      [fun worker =>
        { worker with host := writeAll worker.host indices worker.shared.tmpMemory }]
  | .preFetch args =>
      (fun worker => { worker with blockNum := args.blockNum }) ::
      (fun worker => { worker with host := memUpdate worker.host args.memoryInfo }) ::
      (fun worker =>
        { worker with
          prefetchRes := preFetch epoch.config epoch.tables epoch.parts worker.host args }) ::
      SharedTensors.copySteps.map fun step worker => worker.write (step worker.prefetchRes)

/-- `Pre_fetch.run`. -/
def service : Service (Worker φ ψ α) (Request α) Pipe := ⟨epoch.handle, Request.reply⟩

/-! ## The main process -/

/-- `analyze` for the first block. With the features on disk the main process reads
them itself, and the memory is zero. -/
def analyzeProgram : List (MainCommand φ ψ α) :=
  let part := epoch.parts 0
  let neg := epoch.neg 0
  let mergeNode := fun (feats : List φ) (gpu : Gpu φ ψ α) =>
    { gpu with node := gpu.node.merge (gpu.node.disNeg neg.nodes) feats }
  let mergeEdge := fun (feats : List ψ) (gpu : Gpu φ ψ α) =>
    { gpu with edge := gpu.edge.merge (gpu.edge.disNeg neg.eids) feats }
  let loadPart := Command.run fun main =>
    { main with gpu := some ⟨part.node.load, part.edge.load, []⟩ }
  if epoch.config.useDisk then
    [loadPart,
      .run fun main => main.change fun gpu =>
        mergeNode (gather epoch.tables.nodeFeats (gpu.node.disNeg neg.nodes)) gpu,
      .run fun main => main.change fun gpu =>
        mergeEdge (gather epoch.tables.edgeFeats (gpu.edge.disNeg neg.eids)) gpu,
      .run fun main => main.change fun gpu =>
        { gpu with memory := gpu.node.map.map fun _ => (NodeRow.zeros α epoch.param).1 }]
  else
    [loadPart,
      .send fun main => .selectNodeFeats (main.buffer.node.disNeg neg.nodes),
      .recv .conn,
      .share fun main worker =>
        (main.change (mergeNode worker.shared.tmpNodeFeats), worker),
      .send fun main => .selectEdgeFeats (main.buffer.edge.disNeg neg.eids),
      .recv .conn,
      .share fun main worker =>
        (main.change (mergeEdge worker.shared.tmpEdgeFeats), worker),
      .send fun main => .selectMemory main.buffer.node.map,
      .recv .conn,
      .share fun main worker =>
        (main.change fun gpu => { gpu with memory := worker.shared.tmpMemory }, worker)]

/-- `prefetch_after`, once the worker has answered. -/
def prefetchAfterProgram : List (MainCommand φ ψ α) :=
  [.recv .onlyConn,
    .share fun main worker =>
      (main.change fun gpu =>
        { gpu with edge := gpu.edge.prefetchAfter worker.shared.readEdge }, worker),
    .share fun main worker =>
      (main.change fun gpu =>
        { gpu with node := gpu.node.prefetchAfter worker.shared.readNode }, worker),
    .share fun main worker =>
      (main.change fun gpu =>
        { gpu with
          memory := maskAssign worker.shared.readMemory.rows worker.shared.readMemory.curSame
            (maskSelect worker.shared.readMemory.preSame gpu.memory) }, worker)]

/-- The current block is brought into the buffer. -/
def loadProgram (useAsync : Bool) (block : Nat) : List (MainCommand φ ψ α) :=
  if block = 0 then
    [.send fun _ => .initBucketCache, .recv .conn] ++ epoch.analyzeProgram
  else if useAsync then prefetchAfterProgram
  else
    .send (fun main => .preFetch (main.buffer.preFetchArgs main.curBlock
      (main.stored.getD default))) :: prefetchAfterProgram

/-- What happens with the request for the next block. -/
def requestProgram (useAsync : Bool) (block : Nat) : List (MainCommand φ ψ α) :=
  match epoch.preNegSample (block + 1) with
  | none => []
  | some negInfo =>
      if useAsync then
        [.send fun main =>
          .preFetch (main.buffer.preFetchArgs (main.curBlock + 1) (main.memoryInfo, negInfo))]
      else [.run fun main => { main with stored := some (main.memoryInfo, negInfo) }]

/-- `run_batch` at the first batch of a block. -/
def triggerProgram (useAsync : Bool) (block : Nat) : List (MainCommand φ ψ α) :=
  .run (fun main => { main with memoryInfo := epoch.memoryInfo main.curBlock main.gpu }) ::
    (epoch.loadProgram useAsync block ++ (epoch.requestProgram useAsync block ++
      [.run fun main => { main with curBlock := main.curBlock + 1 }]))

/-- `run_batch` for a batch. -/
def runBatchProgram (useAsync : Bool) (i : Nat) : List (MainCommand φ ψ α) :=
  if i * epoch.sizes.trainBatchSize % epoch.sizes.preSampleSize = 0 then
    epoch.triggerProgram useAsync (i / epoch.sizes.batchNum)
  else []

/-- What a batch sees, and its updates. -/
def trainProgram (i : Nat) : List (MainCommand φ ψ α) :=
  [.run fun main => { main with seen := main.seen ++ [main.gpu] },
    .run fun main => main.change fun gpu => gpu.updates (epoch.updates i)]

/-- A batch. -/
def batchProgram (useAsync : Bool) (i : Nat) : List (MainCommand φ ψ α) :=
  epoch.runBatchProgram useAsync i ++ epoch.trainProgram i

/-- The first batches of an epoch. -/
def batchesProgram (useAsync : Bool) : Nat → List (MainCommand φ ψ α)
  | 0 => []
  | i + 1 => batchesProgram useAsync i ++ epoch.batchProgram useAsync i

/-- `refresh_memory` behind the last batch. -/
def refreshProgram : List (MainCommand φ ψ α) :=
  [.share fun main worker =>
      (main, worker.write fun shared => { shared with tmpMemory := main.buffer.memory }),
    .send fun main => .updateMemory main.buffer.node.map,
    .recv .conn]

/-- An epoch of the main process. -/
def program (useAsync : Bool) : List (MainCommand φ ψ α) :=
  epoch.batchesProgram useAsync (epoch.lastBatch + 1) ++ refreshProgram

/-- The main process after `reset`. -/
def mainInitial : Main φ ψ α := ⟨0, none, none, none, []⟩

/-- The worker after `init_share_tensor` and `reset_memory`. -/
def workerInitial : Worker φ ψ α where
  blockNum := 0
  host := fun _ => (NodeRow.zeros α epoch.param).1
  prefetchRes := ⟨⟨[], [], []⟩, ⟨[], [], []⟩, ⟨[], [], []⟩⟩
  shared := .zeros φ ψ α epoch.shareNodeNum epoch.shareEdgeNum

/-- The processes at the beginning of an epoch. -/
def processes (useAsync : Bool) : System (Main φ ψ α) (Worker φ ψ α) (Request α) Pipe :=
  ⟨mainInitial, epoch.program useAsync, epoch.workerInitial, .quiet⟩

end Epoch

end Dolphin.Buffer
