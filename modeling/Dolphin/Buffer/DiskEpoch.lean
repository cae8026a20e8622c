import Dolphin.Buffer.Tracking
import Dolphin.Buffer.WriteBacks
import Dolphin.Memory.DiskRefinement

/-!
# Blocks with the node memory on disk

With `memory_disk` the worker has no tables of the memory. `mem_update` replays the plan of
`node_memory.py` on the cache and the file, and `mem_select` reads from both. Without
`use_async` the request for a block is sent and handled when its first batch comes, with
`use_async` already at the first batch of the block before, so the worker is a block ahead.
Either way the buffer is filled as from tables that a plan with the run's own lists refines.
-/

namespace Dolphin.Buffer

open Dolphin.Alloc Dolphin.Graph Dolphin.Memory Dolphin.Sampler Dolphin.Semantics Dolphin.Tensor

/-- The plan of a run whose memory is on disk, and for the update of each block the order in
which its writes reach the file. -/
structure DiskPlan (α : Type) where
  setup : MemorySetup
  schedule : Nat → Schedule α

/-- What the buffer and the worker keep between two batches, with `memory_disk` on. -/
structure DiskState (φ ψ α : Type) where
  curBlock : Nat
  gpu : Option (Gpu φ ψ α)
  /-- `self.memory_info` and `self.neg_info`, without `use_async`. -/
  stored : Option (MemoryInfo α × NegInfo)
  /-- What the worker has prepared, with `use_async`. -/
  prefetched : Option (PreFetched φ ψ α)
  store : DiskMemory α

/-! ## The worker -/

section Worker

variable {φ ψ α : Type} [Inhabited φ] [Inhabited ψ] [Inhabited α]

/-- `mem_update` in `pre_fetch`. The first block whose request has rows is the block 2. -/
def DiskPlan.update (plan : DiskPlan α) (store : DiskMemory α) (preFetchBlock : Nat) :
    MemoryInfo α → DiskMemory α
  | none => store
  | some (indices, mems) =>
      let curBlock := preFetchBlock - 2
      Memory.memUpdate plan.setup.plan plan.setup.nodeReorderMap (plan.schedule curBlock) store
        curBlock indices mems

/-- The memory of the nodes of a map, with the rows that `mem_select` reads. -/
def selectDisk (config : Config) (param : MemoryParam) (nodeReorderMap : List Nat)
    (store : DiskMemory α) (partMap map : List Nat) : MemoryResult α :=
  let curSame := isin map partMap false
  let dis := curSame.map (!·)
  { rows := if config.dataIncre then
        maskAssign (map.map fun _ => default) dis
          (memSelect param nodeReorderMap store (maskSelect dis map))
      else memSelect param nodeReorderMap store map
    preSame := isin partMap map false
    curSame := curSame }

namespace Epoch

variable (epoch : Epoch φ ψ α) (plan : DiskPlan α)

/-- `pre_fetch`: the memory afterwards, and what is handed over. -/
def preFetchDisk (store : DiskMemory α) (args : PreFetchArgs α) :
    DiskMemory α × PreFetched φ ψ α :=
  let store := plan.update store args.blockNum args.memoryInfo
  let part := epoch.parts args.blockNum
  let node := preFetchNode epoch.config epoch.tables part.node args.negInfo.nodes args.partNodeMap
  (store,
    { node := node
      edge := preFetchEdge epoch.config epoch.tables part.valid part.edge args.negInfo.eids
        args.partEdgeMap
      memory := selectDisk epoch.config epoch.param plan.setup.nodeReorderMap store
        args.partNodeMap node.map })

/-! ## The main process -/

/-- The worker's memory and the buffer with the current block. The rows of the first block
are zeros; without `use_disk` they are asked for in tables that the worker does not have,
which raises. -/
def loadDisk (useAsync : Bool) (state : DiskState φ ψ α) :
    DiskMemory α × Option (Gpu φ ψ α) :=
  if state.curBlock = 0 then
    (state.store, if epoch.config.useDisk then
      some (analyze epoch.config epoch.param epoch.tables (epoch.parts 0) (fun _ => default)
        (epoch.neg 0)) else none)
  else if useAsync then
    match state.gpu, state.prefetched with
    | some gpu, some fetched => (state.store, some (gpu.prefetchAfter fetched))
    | _, _ => (state.store, state.gpu)
  else
    match state.gpu, state.stored with
    | some gpu, some stored =>
        let (store, fetched) := epoch.preFetchDisk plan state.store
          (gpu.preFetchArgs state.curBlock stored)
        (store, some (gpu.prefetchAfter fetched))
    | _, _ => (state.store, state.gpu)

/-- `run_batch` at the first batch of a block. -/
def triggerDisk (useAsync : Bool) (state : DiskState φ ψ α) : DiskState φ ψ α :=
  let memoryInfo := epoch.memoryInfo state.curBlock state.gpu
  let (store, gpu) := epoch.loadDisk plan useAsync state
  let loaded := { state with curBlock := state.curBlock + 1, gpu := gpu, store := store }
  match epoch.preNegSample (state.curBlock + 1), gpu with
  | some negInfo, some gpu =>
      if useAsync then
        let (store, fetched) := epoch.preFetchDisk plan store
          (gpu.preFetchArgs (state.curBlock + 1) (memoryInfo, negInfo))
        { loaded with prefetched := some fetched, store := store }
      else { loaded with stored := some (memoryInfo, negInfo) }
  | _, _ => loaded

/-- `run_batch`. -/
def runBatchDisk (useAsync : Bool) (state : DiskState φ ψ α) (left : Nat) : DiskState φ ψ α :=
  if left % epoch.sizes.preSampleSize = 0 then epoch.triggerDisk plan useAsync state else state

/-- The state after `reset` and `reset_memory`, with the rows that the file has. -/
def initialDisk (rows : List (List α)) : DiskState φ ψ α where
  curBlock := 0
  gpu := none
  stored := none
  prefetched := none
  store := resetMemory epoch.param plan.setup.plan plan.setup.info.numNodes rows

end Epoch

end Worker

/-! ## Plans of the run -/

namespace Epoch

variable {φ ψ α : Type} {epoch : Epoch φ ψ α} {plan : DiskPlan α}

variable (epoch plan) in
/-- The plan was made of the lists of `gen_part` for this run. -/
def PlansBlocks : Prop := (epoch.writeBack false).genPart = some plan.setup.info.blocks

theorem writeBack_sized (epoch : Epoch φ ψ α) : (epoch.writeBack false).Sized :=
  ⟨epoch.sized, epoch.divides⟩

/-- What retires with a block that is not the last one is planned. -/
theorem PlansBlocks.block (plans : epoch.PlansBlocks plan) {block : Nat}
    (hasNext : epoch.HasBlock (block + 1)) :
    plan.setup.info.blocks[block]? = some (epoch.retiredRoots block) := by
  have sized := epoch.writeBack_sized
  have start : epoch.sizes.blockStart (block + 1) = (block + 1) * epoch.sizes.preSampleSize :=
    sized.blockStart (block + 1)
  have hasNeg : (epoch.writeBack false).HasNeg (block + 1) :=
    (sized.hasNeg_iff (block + 1)).mpr (start ▸ hasNext)
  have before : block < (epoch.writeBack false).lastBlock := sized.le_lastBlock hasNeg
  have lists := (sized.genPart_eq epoch.nonempty).symm.trans plans
  rw [← Option.some.inj lists, List.getElem?_append_left (by simpa using before),
    List.getElem?_map, List.getElem?_range before]
  rfl

theorem genPart_getD (epoch : Epoch φ ψ α) :
    (epoch.writeBack false).genPart = some ((epoch.writeBack false).genPart.getD []) := by
  rw [epoch.writeBack_sized.genPart_eq epoch.nonempty]
  rfl

/-- What `gen_part` leaves for an epoch on nodes below a number. -/
def blockInfo (epoch : Epoch φ ψ α) {numNodes : Nat} (src : ∀ v ∈ epoch.src, v < numNodes)
    (dst : ∀ v ∈ epoch.dst, v < numNodes) : BlockInfo where
  blocks := (epoch.writeBack false).genPart.getD []
  numNodes := numNodes
  distinct := fun _ member =>
    (epoch.writeBack_sized.genPart_nodes epoch.nonempty epoch.genPart_getD member).1
  known := fun _ member v own =>
    ((epoch.writeBack_sized.genPart_nodes epoch.nonempty epoch.genPart_getD member).2 v own).elim
      (src v) (dst v)

/-! ## One request -/

variable [Inhabited φ] [Inhabited ψ] [Inhabited α]

variable (epoch) in
/-- What is sent with the request for a block: what retired two blocks before, with rows of
the configured sizes. -/
def Sends (block : Nat) (info : MemoryInfo α) : Prop :=
  if block < 2 then info = none
  else ∃ rows : Nat → NodeRow α epoch.param, info = some (epoch.retiredRoots (block - 2),
    (epoch.retiredRoots (block - 2)).map fun v => (rows v).1)

variable (epoch plan) in
/-- The worker's memory in front of a block is that of the tables. -/
def Keeps (block : Nat) (store : DiskMemory α) (host : Nat → NodeMem α) : Prop :=
  ∃ (table : Nat → NodeRow α epoch.param) (pool : SlotPool (Option Nat)),
    Refines plan.setup (block - 2) store table pool ∧ host = fun v => (table v).1

omit [Inhabited φ] [Inhabited ψ] in
/-- `mem_select` reads the tables. -/
theorem Keeps.selectDisk {block : Nat} {store : DiskMemory α} {host : Nat → NodeMem α}
    (keeps : epoch.Keeps plan block store host) (partMap map : List Nat) :
    selectDisk epoch.config epoch.param plan.setup.nodeReorderMap store partMap map =
      selectMemory epoch.config host partMap map := by
  obtain ⟨table, pool, refines, rfl⟩ := keeps
  simp only [Buffer.selectDisk, selectMemory, refines.memSelect]

omit [Inhabited φ] [Inhabited ψ] in
/-- `mem_update` with the request for a block. -/
theorem Keeps.update {block : Nat} {store : DiskMemory α} {host : Nat → NodeMem α}
    (keeps : epoch.Keeps plan block store host) (plans : epoch.PlansBlocks plan)
    (hasBlock : epoch.HasBlock block) (positive : 0 < block) {info : MemoryInfo α}
    (sends : epoch.Sends block info) :
    epoch.Keeps plan (block + 1) (plan.update store block info) (memUpdate host info) := by
  obtain ⟨table, pool, refines, rfl⟩ := keeps
  match block, positive with
  | 1, _ =>
      obtain rfl : info = none := sends
      exact ⟨table, pool, refines, rfl⟩
  | block + 2, _ =>
      obtain ⟨rows, rfl⟩ : ∃ rows : Nat → NodeRow α epoch.param,
          info = some (epoch.retiredRoots block,
            (epoch.retiredRoots block).map fun v => (rows v).1) := by
        simpa [Sends] using sends
      have own := plans.block (hasBlock.mono (Nat.le_succ (block + 1)))
      obtain ⟨after, next⟩ := Refines.update refines own (plan.schedule block)
        (List.length_map rows)
      refine ⟨writeAll table (epoch.retiredRoots block) ((epoch.retiredRoots block).map rows),
        after, ?_, funext fun v => ?_⟩
      · rw [List.map_map] at next
        exact next
      · rw [memUpdate, writeAll_map, writeAll_map]
        split
        · rfl
        · rfl

/-- The answer to a request, and the memory behind it. -/
theorem Keeps.preFetch {store : DiskMemory α} {host : Nat → NodeMem α} {args : PreFetchArgs α}
    (keeps : epoch.Keeps plan args.blockNum store host) (plans : epoch.PlansBlocks plan)
    (hasBlock : epoch.HasBlock args.blockNum) (positive : 0 < args.blockNum)
    (sends : epoch.Sends args.blockNum args.memoryInfo) :
    epoch.Keeps plan (args.blockNum + 1) (epoch.preFetchDisk plan store args).1
        (memUpdate host args.memoryInfo) ∧
      (epoch.preFetchDisk plan store args).2 = Buffer.preFetch epoch.config epoch.tables
        epoch.parts (memUpdate host args.memoryInfo) args := by
  have after := keeps.update plans hasBlock positive sends
  refine ⟨after, ?_⟩
  simp only [preFetchDisk, after.selectDisk]
  rfl

/-! ## Both runs -/

variable (epoch) in
/-- The request for a block, when the block before it is in the buffer. -/
def argsAt (block : Nat) (info : MemoryInfo α) : PreFetchArgs α where
  blockNum := block
  memoryInfo := info
  negInfo := epoch.neg block
  partNodeMap := epoch.nodeMap (block - 1)
  partEdgeMap := epoch.edgeMap (block - 1)

variable (epoch plan) in
/-- A request is stored, or the worker has handled it already. -/
def Requested (useAsync : Bool) (state : DiskState φ ψ α) (store : DiskMemory α)
    (args : PreFetchArgs α) : Prop :=
  if useAsync then state.store = (epoch.preFetchDisk plan store args).1 ∧
    state.prefetched = some (epoch.preFetchDisk plan store args).2
  else state.store = store ∧ state.stored = some (args.memoryInfo, args.negInfo)

variable (epoch plan) in
/-- The run with the memory on disk beside the one with tables: the same buffer, and in front
of the next request a memory that refines the tables. -/
structure OnDisk (useAsync : Bool) (state : DiskState φ ψ α) (reference : BufferState φ ψ α) :
    Prop where
  curBlock : state.curBlock = reference.curBlock
  gpu : state.gpu = reference.gpu
  worker : ∃ store, epoch.Keeps plan reference.curBlock store reference.host ∧
    (reference.curBlock = 0 → state.store = store) ∧
    (0 < reference.curBlock → epoch.HasBlock reference.curBlock → ∃ info,
      reference.stored = some (info, epoch.neg reference.curBlock) ∧
      epoch.Sends reference.curBlock info ∧
      epoch.Requested plan useAsync state store (epoch.argsAt reference.curBlock info))

/-- Before the first batch. -/
theorem onDisk_initial (useAsync : Bool) {rows : List (List α)}
    (sized : rows.length = plan.setup.fileRows) :
    epoch.OnDisk plan useAsync (epoch.initialDisk plan rows) epoch.initial where
  curBlock := rfl
  gpu := rfl
  worker := by
    obtain ⟨pool, refines⟩ := @Refines.reset _ _ epoch.param _ _ sized
    exact ⟨_, ⟨_, pool, refines, rfl⟩, fun _ => rfl, fun positive => absurd positive (lt_irrefl 0)⟩

/-- What the batches write to the buffer does not reach the worker. -/
theorem OnDisk.withGpu {useAsync : Bool} {state : DiskState φ ψ α}
    {reference : BufferState φ ψ α} (onDisk : epoch.OnDisk plan useAsync state reference)
    (gpu : Option (Gpu φ ψ α)) :
    epoch.OnDisk plan useAsync { state with gpu := gpu } { reference with gpu := gpu } where
  curBlock := onDisk.curBlock
  gpu := rfl
  worker := onDisk.worker

/-- What `run_batch` leaves behind once a block is loaded. -/
theorem triggerDisk_loaded {useAsync : Bool} {state : DiskState φ ψ α} {store : DiskMemory α}
    {gpu : Gpu φ ψ α} (loads : epoch.loadDisk plan useAsync state = (store, some gpu)) :
    (epoch.triggerDisk plan useAsync state).curBlock = state.curBlock + 1 ∧
      (epoch.triggerDisk plan useAsync state).gpu = some gpu ∧
      (epoch.HasBlock (state.curBlock + 1) →
        epoch.Requested plan useAsync (epoch.triggerDisk plan useAsync state) store
          (gpu.preFetchArgs (state.curBlock + 1)
            (epoch.memoryInfo state.curBlock state.gpu, epoch.neg (state.curBlock + 1)))) := by
  simp only [triggerDisk, loads, preNegSample_eq]
  by_cases hasNext : epoch.HasBlock (state.curBlock + 1)
  · cases useAsync with
    | true => simp [hasNext, Requested]
    | false => simp [hasNext, Requested, Gpu.preFetchArgs]
  · simp [hasNext]

omit [Inhabited φ] [Inhabited ψ] [Inhabited α] in
/-- The arguments of a request are those of the block in the buffer. -/
theorem Loaded.args {block : Nat} {state : BufferState φ ψ α} {gpu : Gpu φ ψ α}
    {info : MemoryInfo α} (loaded : epoch.Loaded block state gpu info) (sent : MemoryInfo α) :
    gpu.preFetchArgs (block + 1) (sent, epoch.neg (block + 1)) = epoch.argsAt (block + 1) sent := by
  rw [Gpu.preFetchArgs, argsAt, loaded.nodeMap, loaded.edgeMap]
  rfl

/-- The first block. -/
theorem OnDisk.first {useAsync : Bool} {state : DiskState φ ψ α} {reference : BufferState φ ψ α}
    (onDisk : epoch.OnDisk plan useAsync state reference) (useDisk : epoch.config.useDisk = true)
    (start : reference.curBlock = 0) (empty : reference.gpu = none) :
    epoch.OnDisk plan useAsync (epoch.triggerDisk plan useAsync state)
      (epoch.trigger reference) := by
  obtain ⟨store, keeps, same, -⟩ := onDisk.worker
  have front : state.curBlock = 0 := onDisk.curBlock.trans start
  let gpu : Gpu φ ψ α := analyze epoch.config epoch.param epoch.tables (epoch.parts 0)
    (fun _ => default) (epoch.neg 0)
  have zeros : analyze epoch.config epoch.param epoch.tables (epoch.parts 0) reference.host
      (epoch.neg 0) = gpu := by
    simp only [gpu, analyze, analyzeMem, useDisk, if_true]
  have loads : epoch.loadDisk plan useAsync state = (store, some gpu) := by
    rw [loadDisk, if_pos front, if_pos useDisk, same start]
  have args : gpu.preFetchArgs 1 (none, epoch.neg 1) = epoch.argsAt 1 none := by
    have node : gpu.node.map = epoch.nodeMap 0 := analyzeSide_map _ _ _
    have edge : gpu.edge.map = epoch.edgeMap 0 := analyzeSide_map _ _ _
    rw [Gpu.preFetchArgs, node, edge]
    rfl
  obtain ⟨curBlock, loaded, requested⟩ := triggerDisk_loaded loads
  rw [front, onDisk.gpu, empty] at requested
  have next : (epoch.trigger reference).curBlock = 1 := by rw [trigger, start]
  refine ⟨?_, ?_, store, ?_, ?_, fun _ hasNext => ⟨none, ?_, ?_, ?_⟩⟩
  · rw [curBlock, front, next]
  · rw [loaded, trigger, load, if_pos start, zeros]
  · obtain ⟨table, pool, refines, host⟩ := keeps
    refine ⟨table, pool, ?_, ?_⟩
    · rw [next]
      rwa [start] at refines
    · rw [trigger, load, if_pos start, host]
  · rw [next]
    exact fun zero => absurd zero Nat.one_ne_zero
  · rw [next] at hasNext ⊢
    simp only [trigger, start, preNegSample_eq, if_pos hasNext, empty]
    rfl
  · rw [next]
    rfl
  · rw [next] at hasNext ⊢
    exact args ▸ requested hasNext

/-- What is sent behind a block. -/
theorem Tracks.sends {block : Nat} {state : BufferState φ ψ α} {gpu : Gpu φ ψ α}
    {info : MemoryInfo α} {rows : Nat → NodeMem α} (training : epoch.config.modelEval = false)
    (tracks : epoch.Tracks block state gpu info rows) (roots : epoch.RootsInMaps)
    (hasBlock : epoch.HasBlock block) (shaped : ∀ v, (rows v).Shaped epoch.param) :
    epoch.Sends (block + 2) (epoch.memoryInfo (block + 1) (some gpu)) := by
  have read : gpu.getMails (epoch.retiredRoots block) = (epoch.retiredRoots block).map rows :=
    tracks.getMails fun v retired => roots block hasBlock v (mem_retiredRoots.mp retired).1
  rw [Sends, if_neg (by omega)]
  refine ⟨fun v => ⟨rows v, shaped v⟩, ?_⟩
  simp [Epoch.memoryInfo, training, read]

/-- The next block. -/
theorem OnDisk.next {useAsync : Bool} {state : DiskState φ ψ α} {reference : BufferState φ ψ α}
    (onDisk : epoch.OnDisk plan useAsync state reference) (plans : epoch.PlansBlocks plan)
    (training : epoch.config.modelEval = false) (roots : epoch.RootsInMaps) {block : Nat}
    (hasNext : epoch.HasBlock (block + 1)) {gpu : Gpu φ ψ α} {info : MemoryInfo α}
    {rows : Nat → NodeMem α} (tracks : epoch.Tracks block reference gpu info rows)
    (shaped : ∀ v, (rows v).Shaped epoch.param) :
    epoch.OnDisk plan useAsync (epoch.triggerDisk plan useAsync state)
      (epoch.trigger reference) := by
  obtain ⟨store, keeps, -, later⟩ := onDisk.worker
  have number := tracks.loaded.curBlock
  rw [number] at keeps later
  obtain ⟨info', stored, sends, requested⟩ := later (Nat.succ_pos block) hasNext
  obtain rfl : info = info' :=
    congrArg Prod.fst (Option.some.inj ((tracks.loaded.stored hasNext).symm.trans stored))
  have front : epoch.Keeps plan (epoch.argsAt (block + 1) info).blockNum store reference.host :=
    keeps
  obtain ⟨after, answer⟩ := front.preFetch plans hasNext (Nat.succ_pos block) sends
  obtain ⟨loaded, host⟩ := tracks.loaded.trigger hasNext
  have current : state.curBlock = block + 1 := onDisk.curBlock.trans number
  have inBuffer : state.gpu = some gpu := onDisk.gpu.trans tracks.loaded.loaded
  have own := tracks.loaded.args info
  have answered : (epoch.preFetchDisk plan store (epoch.argsAt (block + 1) info)).2 =
      Buffer.preFetch epoch.config epoch.tables epoch.parts (memUpdate reference.host info)
        (epoch.argsAt (block + 1) info) := answer
  -- both ways the worker has made the same of the request
  have loads : epoch.loadDisk plan useAsync state =
      ((epoch.preFetchDisk plan store (epoch.argsAt (block + 1) info)).1,
        some (epoch.nextGpu block reference gpu info)) := by
    rw [nextGpu, own, ← answered, loadDisk, if_neg (current ▸ Nat.succ_ne_zero block), inBuffer]
    cases useAsync with
    | true =>
        obtain ⟨handled, fetched⟩ := requested
        simp only [if_true, fetched, handled]
    | false =>
        obtain ⟨waits, sent⟩ := requested
        have request : gpu.preFetchArgs state.curBlock
            ((epoch.argsAt (block + 1) info).memoryInfo,
              (epoch.argsAt (block + 1) info).negInfo) = epoch.argsAt (block + 1) info := by
          rw [current]
          exact own
        simp only [Bool.false_eq_true, if_false, sent, waits, request]
  obtain ⟨curBlock, isLoaded, sent⟩ := triggerDisk_loaded loads
  rw [current, inBuffer] at sent
  refine ⟨?_, ?_, (epoch.preFetchDisk plan store (epoch.argsAt (block + 1) info)).1, ?_, ?_,
    fun _ hasLater => ⟨epoch.memoryInfo (block + 1) (some gpu), ?_, ?_, ?_⟩⟩
  · rw [curBlock, current, loaded.curBlock]
  · rw [isLoaded, loaded.loaded]
  · rw [loaded.curBlock, host]
    exact after
  · rw [loaded.curBlock]
    exact fun zero => absurd zero (Nat.succ_ne_zero _)
  · rw [loaded.curBlock] at hasLater ⊢
    exact loaded.stored hasLater
  · rw [loaded.curBlock]
    exact tracks.sends training roots (hasNext.mono (Nat.le_succ block)) shaped
  · rw [loaded.curBlock] at hasLater ⊢
    exact loaded.args _ ▸ sent hasLater

end Epoch

end Dolphin.Buffer
