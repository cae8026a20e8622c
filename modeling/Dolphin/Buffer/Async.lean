import Dolphin.Buffer.Processes

/-!
# Prefetching ahead

With `use_async` the worker handles the request for a block while the main process
still trains the one before. Its arguments are those that are stored without
`use_async`, updates change neither them nor the host tables, and the main process
waits for the reply before it touches the shared tensors. So both programs do, under
every interleaving, what the run of `run_batch` does.
-/

namespace Dolphin.Buffer

open Dolphin.Memory Dolphin.Sampler Dolphin.Semantics Dolphin.Tensor

/-- The worker's copies, as one write. -/
theorem runSteps_copy {φ ψ α : Type}
    (steps : List (PreFetched φ ψ α → SharedTensors φ ψ α → SharedTensors φ ψ α))
    (worker : Worker φ ψ α) :
    runSteps (steps.map fun step worker => worker.write (step worker.prefetchRes)) worker =
      worker.write (steps.foldl (fun shared step => step worker.prefetchRes shared)) := by
  unfold runSteps
  induction steps generalizing worker with
  | nil => rfl
  | cons step steps ih =>
      rw [List.map_cons, List.foldl_cons, ih]
      rfl

namespace Epoch

variable {φ ψ α : Type} [Inhabited φ] [Inhabited ψ] [Inhabited α] {epoch : Epoch φ ψ α}

/-! ## The worker -/

/-- A handled `pre_fetch` has written the memory and handed over its result. -/
theorem handle_preFetch {worker : Worker φ ψ α} {args : PreFetchArgs α}
    (shaped : worker.shared.Shaped epoch.shareNodeNum epoch.shareEdgeNum)
    (fits : (preFetch epoch.config epoch.tables epoch.parts
      (memUpdate worker.host args.memoryInfo) args).Fits epoch.shareNodeNum epoch.shareEdgeNum) :
    let after := runSteps (epoch.handle (.preFetch args)) worker
    after.host = memUpdate worker.host args.memoryInfo ∧
      after.shared.Shaped epoch.shareNodeNum epoch.shareEdgeNum ∧
      after.shared.read = preFetch epoch.config epoch.tables epoch.parts
        (memUpdate worker.host args.memoryInfo) args := by
  intro after
  have steps : after = _ := runSteps_copy SharedTensors.copySteps _
  obtain ⟨shape, read⟩ := SharedTensors.copied shaped fits
  rw [steps]
  exact ⟨rfl, shape, read⟩

/-- `prefetch_after` reads what was handed over. -/
theorem runSeq_prefetchAfter (epoch : Epoch φ ψ α) (main : Main φ ψ α) (worker : Worker φ ψ α) :
    runSeq epoch.service prefetchAfterProgram main worker =
      (main.change fun gpu => gpu.prefetchAfter worker.shared.read, worker) := by
  obtain ⟨curBlock, gpu, memoryInfo, stored, seen⟩ := main
  cases gpu with
  | none => rfl
  | some gpu => rfl

/-! ## The simulation -/

/-- The worker is ahead: the request for a block is under way or handled. -/
def Ahead (epoch : Epoch φ ψ α) (useAsync : Bool) (block : Nat) : Prop :=
  useAsync = true ∧ 0 < block ∧ epoch.HasBlock block

/-- The processes between two commands of `run_batch`, with every request handled, and
the state of the run. A worker that is ahead has written and read what the run will
write and read at the next block. -/
structure Simulates (epoch : Epoch φ ψ α) (useAsync : Bool) (seen : List (Option (Gpu φ ψ α)))
    (state : BufferState φ ψ α) (main : Main φ ψ α) (worker : Worker φ ψ α) : Prop where
  curBlock : main.curBlock = state.curBlock
  gpu : main.gpu = state.gpu
  stored : useAsync = false → main.stored = state.stored
  seen : main.seen = seen
  shaped : worker.shared.Shaped epoch.shareNodeNum epoch.shareEdgeNum
  host : ¬epoch.Ahead useAsync state.curBlock → worker.host = state.host
  ahead : epoch.Ahead useAsync state.curBlock →
    ∀ gpu stored, state.gpu = some gpu → state.stored = some stored →
      worker.host = memUpdate state.host stored.1 ∧
        worker.shared.read = preFetch epoch.config epoch.tables epoch.parts worker.host
          (gpu.preFetchArgs state.curBlock stored)

theorem simulates_initial (epoch : Epoch φ ψ α) (useAsync : Bool) :
    epoch.Simulates useAsync [] epoch.initial mainInitial epoch.workerInitial where
  curBlock := rfl
  gpu := rfl
  stored := fun _ => rfl
  seen := rfl
  shaped := SharedTensors.zeros_shaped _ _
  host := fun _ => rfl
  ahead := fun ahead => absurd ahead.2.1 (Nat.lt_irrefl 0)

/-- A batch changes neither what the worker has done nor what it is asked for. -/
theorem Simulates.updates {useAsync : Bool} {seen : List (Option (Gpu φ ψ α))}
    {state : BufferState φ ψ α} {main : Main φ ψ α} {worker : Worker φ ψ α}
    (simulates : epoch.Simulates useAsync seen state main worker) (calls : List (Update α)) :
    epoch.Simulates useAsync seen (state.updates calls)
      (main.change fun gpu => gpu.updates calls) worker where
  curBlock := simulates.curBlock
  gpu := by
    rw [Main.change, simulates.gpu]
    rfl
  stored := simulates.stored
  seen := simulates.seen
  shaped := simulates.shaped
  host := simulates.host
  ahead := by
    intro ahead gpu stored loaded request
    obtain ⟨before, own, rfl⟩ := Option.map_eq_some_iff.mp loaded
    have same : (before.updates calls).preFetchArgs (state.updates calls).curBlock stored =
        before.preFetchArgs state.curBlock stored := by
      rw [Gpu.preFetchArgs, Gpu.preFetchArgs, Gpu.updates_node, Gpu.updates_edge]
      rfl
    rw [same]
    exact simulates.ahead ahead before stored own request

/-- The current block is in the buffer, and nothing is under way. -/
structure Loads (epoch : Epoch φ ψ α) (state : BufferState φ ψ α) (before main : Main φ ψ α)
    (worker : Worker φ ψ α) : Prop where
  main : main = { before with gpu := (epoch.load state).2 }
  host : worker.host = (epoch.load state).1
  shaped : worker.shared.Shaped epoch.shareNodeNum epoch.shareEdgeNum

/-- The first block is loaded. -/
theorem loads_first {worker : Worker φ ψ α} (useAsync : Bool) (main : Main φ ψ α)
    (blockNum : worker.blockNum = 0) (host : worker.host = epoch.initial.host)
    (shaped : worker.shared.Shaped epoch.shareNodeNum epoch.shareEdgeNum) :
    let after := runSeq epoch.service (epoch.loadProgram useAsync 0) main worker
    epoch.Loads epoch.initial main after.1 after.2 := by
  cases disk : epoch.config.useDisk with
  | true =>
      have direct : epoch.config.validEdge = false := by simp [Config.validEdge, disk]
      refine ⟨?_, ?_, ?_⟩
      all_goals simp [loadProgram, analyzeProgram, disk, runSeq, service, handle, runSteps,
        Main.change, load, initial]
      · simp [analyze, analyzeSide, analyzeMem, selectEdge, direct, disk, GpuSide.merge]
      · exact host
      · exact shaped
  | false =>
      refine ⟨?_, ?_, ?_⟩
      all_goals simp [loadProgram, analyzeProgram, disk, runSeq, service, handle, runSteps,
        Main.change, Main.buffer, Worker.write, load, initial]
      · simp [analyze, analyzeSide, analyzeMem, disk, blockNum, host, initial, GpuSide.merge]
      · exact host
      · exact ⟨shaped.partNodeMap, shaped.partNodeFeats, shaped.partEdgeMap,
          shaped.partEdgeFeats, shaped.partMemory, shaped.preSameNodes, shaped.curSameNodes,
          shaped.nodeDInd, shaped.edgeDInd⟩

/-- A later block is loaded: the worker is ahead, or is asked now. -/
theorem Simulates.loads {useAsync : Bool} {seen : List (Option (Gpu φ ψ α))}
    {state : BufferState φ ψ α} {main : Main φ ψ α} {worker : Worker φ ψ α}
    (simulates : epoch.Simulates useAsync seen state main worker) {block : Nat} {gpu : Gpu φ ψ α}
    {info : MemoryInfo α} (loaded : epoch.Loaded block state gpu info)
    (hasNext : epoch.HasBlock (block + 1)) (memoryInfo : MemoryInfo α) :
    let before := { main with memoryInfo := memoryInfo }
    let after := runSeq epoch.service (epoch.loadProgram useAsync (block + 1)) before worker
    epoch.Loads state before after.1 after.2 := by
  intro before after
  have request := loaded.stored hasNext
  have own : main.gpu = some gpu := simulates.gpu.trans loaded.loaded
  have load : epoch.load state =
      (memUpdate state.host info, some (epoch.nextGpu block state gpu info)) := by
    simp [Epoch.load, loaded.curBlock, loaded.loaded, request, nextGpu]
  cases useAsync with
  | true =>
      have ahead : epoch.Ahead true state.curBlock := by
        rw [loaded.curBlock]
        exact ⟨rfl, Nat.succ_pos block, hasNext⟩
      obtain ⟨host, read⟩ := simulates.ahead ahead gpu _ loaded.loaded request
      have fetched : after = _ := runSeq_prefetchAfter epoch before worker
      rw [fetched]
      refine ⟨?_, ?_, simulates.shaped⟩
      · rw [Main.change, load, read, host, loaded.curBlock]
        simp only [before, own]
        rfl
      · rw [load]
        exact host
  | false =>
      have idle : ¬epoch.Ahead false state.curBlock := fun ahead => Bool.noConfusion ahead.1
      have args : before.buffer.preFetchArgs before.curBlock (before.stored.getD default) =
          gpu.preFetchArgs (block + 1) (info, epoch.neg (block + 1)) := by
        simp only [before, Main.buffer, own, simulates.curBlock, simulates.stored, loaded.curBlock,
          request, Option.getD_some]
      have room : gpu.node.map.length ≤ epoch.shareNodeNum := by
        rw [loaded.nodeMap]
        exact epoch.nodeFits block
      obtain ⟨host, shaped, read⟩ := handle_preFetch simulates.shaped
        (epoch.preFetch_fits (memUpdate worker.host info) (block + 1) info room)
      have sent : after = runSeq epoch.service prefetchAfterProgram before (runSteps
          (epoch.handle (.preFetch (gpu.preFetchArgs (block + 1) (info, epoch.neg (block + 1)))))
          worker) := by
        rw [← args]
        rfl
      rw [sent, runSeq_prefetchAfter]
      refine ⟨?_, ?_, shaped⟩
      · rw [Main.change, load]
        simp only [before, own, read, simulates.host idle]
        rfl
      · rw [load]
        refine Eq.trans host ?_
        rw [simulates.host idle]
        rfl

/-- The request for the next block is sent or stored. -/
theorem Loads.request {useAsync : Bool} {state : BufferState φ ψ α} {before main : Main φ ψ α}
    {worker : Worker φ ψ α} (loads : epoch.Loads state before main worker)
    (curBlock : before.curBlock = state.curBlock)
    (info : before.memoryInfo = epoch.memoryInfo state.curBlock state.gpu)
    (stored : useAsync = false → before.stored = state.stored)
    {seen : List (Option (Gpu φ ψ α))} (views : before.seen = seen)
    {gpu : Gpu φ ψ α} (loaded : (epoch.load state).2 = some gpu)
    (room : gpu.node.map.length ≤ epoch.shareNodeNum) :
    let program := epoch.requestProgram useAsync state.curBlock ++
      [.run fun main => { main with curBlock := main.curBlock + 1 }]
    let after := runSeq epoch.service program main worker
    epoch.Simulates useAsync seen (epoch.trigger state) after.1 after.2 := by
  intro program after
  have sampled := epoch.preNegSample_eq (state.curBlock + 1)
  obtain ⟨rfl, host, shaped⟩ := loads
  by_cases next : epoch.HasBlock (state.curBlock + 1)
  · rw [if_pos next] at sampled
    cases useAsync with
    | false =>
        have run : after = ({ before with
            gpu := (epoch.load state).2
            stored := some (before.memoryInfo, epoch.neg (state.curBlock + 1))
            curBlock := before.curBlock + 1 }, worker) := by
          simp only [after, program, requestProgram, sampled]
          rfl
        rw [run]
        exact {
          curBlock := congrArg (· + 1) curBlock
          gpu := rfl
          stored := fun _ => by simp only [Epoch.trigger, sampled, info]
          seen := views
          shaped := shaped
          host := fun _ => host
          ahead := fun ahead => Bool.noConfusion ahead.1 }
    | true =>
        have args : ({ before with gpu := (epoch.load state).2 } : Main φ ψ α).buffer = gpu := by
          rw [Main.buffer, loaded, Option.getD_some]
        obtain ⟨handled, handledShaped, read⟩ := handle_preFetch shaped
          (epoch.preFetch_fits (memUpdate worker.host before.memoryInfo) (before.curBlock + 1)
            before.memoryInfo room)
        have run : after = ({ before with
            gpu := (epoch.load state).2
            curBlock := before.curBlock + 1 }, runSteps (epoch.handle (.preFetch
              (gpu.preFetchArgs (before.curBlock + 1)
                (before.memoryInfo, epoch.neg (before.curBlock + 1))))) worker) := by
          simp only [after, program, requestProgram, sampled]
          rw [← args, curBlock]
          rfl
        rw [run]
        exact {
          curBlock := congrArg (· + 1) curBlock
          gpu := rfl
          stored := fun sync => Bool.noConfusion sync
          seen := views
          shaped := handledShaped
          host := fun idle => absurd ⟨rfl, Nat.succ_pos _, next⟩ idle
          ahead := by
            intro _ own stored again request
            obtain rfl : gpu = own := Option.some.inj (loaded.symm.trans again)
            simp only [Epoch.trigger, sampled, ← info, Option.some.injEq] at request
            subst request
            rw [curBlock] at handled read
            refine ⟨?_, ?_⟩
            · rw [curBlock, handled, host]
              rfl
            · rw [curBlock, read, handled]
              rfl }
  · rw [if_neg next] at sampled
    have run : after = ({ before with
        gpu := (epoch.load state).2
        curBlock := before.curBlock + 1 }, worker) := by
      simp only [after, program, requestProgram, sampled]
      rfl
    rw [run]
    exact {
      curBlock := congrArg (· + 1) curBlock
      gpu := rfl
      stored := fun sync => by simp only [Epoch.trigger, sampled, stored sync]
      seen := views
      shaped := shaped
      host := fun _ => host
      ahead := fun ahead => absurd ahead.2.2 next }

/-- `run_batch` at the first batch of a block. -/
theorem Simulates.trigger {useAsync : Bool} {seen : List (Option (Gpu φ ψ α))}
    {state : BufferState φ ψ α} {main : Main φ ψ α} {worker : Worker φ ψ α}
    (simulates : epoch.Simulates useAsync seen state main worker)
    (loads :
      let before := { main with memoryInfo := epoch.memoryInfo main.curBlock main.gpu }
      let after := runSeq epoch.service (epoch.loadProgram useAsync state.curBlock) before worker
      epoch.Loads state before after.1 after.2)
    {gpu : Gpu φ ψ α} (loaded : (epoch.load state).2 = some gpu)
    (room : gpu.node.map.length ≤ epoch.shareNodeNum) :
    let after := runSeq epoch.service (epoch.triggerProgram useAsync state.curBlock) main worker
    epoch.Simulates useAsync seen (epoch.trigger state) after.1 after.2 := by
  have info : epoch.memoryInfo main.curBlock main.gpu =
      epoch.memoryInfo state.curBlock state.gpu := by
    rw [simulates.curBlock, simulates.gpu]
  rw [triggerProgram, runSeq, runSeq_append]
  exact loads.request simulates.curBlock info simulates.stored simulates.seen loaded room

/-- What a batch sees is what the run sees. -/
theorem Simulates.train {useAsync : Bool} {seen : List (Option (Gpu φ ψ α))}
    {state : BufferState φ ψ α} {main : Main φ ψ α} {worker : Worker φ ψ α}
    (simulates : epoch.Simulates useAsync seen state main worker) (i : Nat) :
    let after := runSeq epoch.service (epoch.trainProgram i) main worker
    epoch.Simulates useAsync (seen ++ [state.gpu]) (state.updates (epoch.updates i)) after.1
      after.2 := by
  have logged : epoch.Simulates useAsync (seen ++ [state.gpu]) state
      { main with seen := main.seen ++ [main.gpu] } worker :=
    { simulates with seen := by rw [simulates.seen, simulates.gpu] }
  exact logged.updates (epoch.updates i)

/-! ## The whole epoch -/

/-- The buffer as the first batches see it. -/
def views (epoch : Epoch φ ψ α) (count : Nat) : List (Option (Gpu φ ψ α)) :=
  (List.range count).map fun i => (epoch.started i).gpu

/-- The processes after a program of which every request is handled at once. -/
def alone (epoch : Epoch φ ψ α) (program : List (MainCommand φ ψ α)) :
    Main φ ψ α × Worker φ ψ α :=
  runSeq epoch.service program mainInitial epoch.workerInitial

/-- The program up to where `run_batch` returns for a batch. -/
def startProgram (epoch : Epoch φ ψ α) (useAsync : Bool) (i : Nat) : List (MainCommand φ ψ α) :=
  epoch.batchesProgram useAsync i ++ epoch.runBatchProgram useAsync i

theorem alone_append (epoch : Epoch φ ψ α) (first second : List (MainCommand φ ψ α)) :
    epoch.alone (first ++ second) =
      runSeq epoch.service second (epoch.alone first).1 (epoch.alone first).2 :=
  runSeq_append _ _ _ _ _

/-- Inside a block `run_batch` does nothing. -/
theorem runBatchProgram_inside (epoch : Epoch φ ψ α) (useAsync : Bool) {i : Nat}
    (same : (i + 1) / epoch.sizes.batchNum = i / epoch.sizes.batchNum) :
    epoch.runBatchProgram useAsync (i + 1) = [] := by
  refine if_neg fun opened => ?_
  have multiple := Nat.dvd_of_mod_eq_zero ((epoch.left_mod (i + 1)).mp opened)
  rw [Nat.succ_div_of_dvd multiple] at same
  exact absurd same (Nat.succ_ne_self _)

/-- Where a block ends it begins the next one. -/
theorem runBatchProgram_next (epoch : Epoch φ ψ α) (useAsync : Bool) {i : Nat}
    (next : (i + 1) / epoch.sizes.batchNum = i / epoch.sizes.batchNum + 1) :
    epoch.runBatchProgram useAsync (i + 1) =
      epoch.triggerProgram useAsync (i / epoch.sizes.batchNum + 1) := by
  have multiple : epoch.sizes.batchNum ∣ i + 1 := by
    by_contra within
    rw [Nat.succ_div_of_not_dvd within] at next
    exact absurd next.symm (Nat.succ_ne_self _)
  rw [runBatchProgram, if_pos ((epoch.left_mod (i + 1)).mpr (Nat.mod_eq_zero_of_dvd multiple)),
    next]

/-- A batch is over. -/
theorem simulates_finished {useAsync : Bool} {i : Nat}
    (simulates : epoch.Simulates useAsync (epoch.views i) (epoch.started i)
      (epoch.alone (epoch.startProgram useAsync i)).1
      (epoch.alone (epoch.startProgram useAsync i)).2) :
    epoch.Simulates useAsync (epoch.views (i + 1)) (epoch.finished i)
      (epoch.alone (epoch.batchesProgram useAsync (i + 1))).1
      (epoch.alone (epoch.batchesProgram useAsync (i + 1))).2 := by
  have program : epoch.batchesProgram useAsync (i + 1) =
      epoch.startProgram useAsync i ++ epoch.trainProgram i := by
    rw [batchesProgram, batchProgram, startProgram, List.append_assoc]
  have seen : epoch.views (i + 1) = epoch.views i ++ [(epoch.started i).gpu] := by
    simp [views, List.range_succ]
  rw [program, alone_append, seen]
  exact simulates.train i

/-- The first block is begun. -/
theorem simulates_first (epoch : Epoch φ ψ α) (useAsync : Bool) :
    epoch.Simulates useAsync (epoch.views 0) (epoch.trigger epoch.initial)
      (epoch.alone (epoch.startProgram useAsync 0)).1
      (epoch.alone (epoch.startProgram useAsync 0)).2 := by
  have loaded := epoch.loaded_first
  have program : epoch.startProgram useAsync 0 = epoch.triggerProgram useAsync 0 := by
    simp [startProgram, batchesProgram, runBatchProgram]
  have room : epoch.firstGpu.node.map.length ≤ epoch.shareNodeNum := by
    rw [loaded.nodeMap]
    exact epoch.nodeFits 0
  rw [program]
  exact (simulates_initial epoch useAsync).trigger
    (loads_first useAsync _ rfl rfl (SharedTensors.zeros_shaped _ _)) loaded.loaded room

/-- The next block is begun. -/
theorem Simulates.next {useAsync : Bool} {seen : List (Option (Gpu φ ψ α))}
    {state : BufferState φ ψ α} {main : Main φ ψ α} {worker : Worker φ ψ α}
    (simulates : epoch.Simulates useAsync seen state main worker) {block : Nat} {gpu : Gpu φ ψ α}
    {info : MemoryInfo α} (loaded : epoch.Loaded block state gpu info)
    (hasNext : epoch.HasBlock (block + 1)) :
    let after := runSeq epoch.service (epoch.triggerProgram useAsync (block + 1)) main worker
    epoch.Simulates useAsync seen (epoch.trigger state) after.1 after.2 := by
  have next := (loaded.trigger hasNext).1
  have room : (epoch.nextGpu block state gpu info).node.map.length ≤ epoch.shareNodeNum := by
    rw [next.nodeMap]
    exact epoch.nodeFits (block + 1)
  have loads := simulates.loads loaded hasNext (epoch.memoryInfo main.curBlock main.gpu)
  rw [← loaded.curBlock] at loads ⊢
  exact simulates.trigger loads next.loaded room

/-- When `run_batch` returns, the processes simulate the run. -/
theorem simulates_started (epoch : Epoch φ ψ α) (useAsync : Bool) {i : Nat}
    (batch : epoch.HasBatch i) :
    (∃ gpu info, epoch.Loaded (i / epoch.sizes.batchNum) (epoch.started i) gpu info) ∧
      epoch.Simulates useAsync (epoch.views i) (epoch.started i)
        (epoch.alone (epoch.startProgram useAsync i)).1
        (epoch.alone (epoch.startProgram useAsync i)).2 := by
  refine epoch.started_induction (motive := fun i state =>
    (∃ gpu info, epoch.Loaded (i / epoch.sizes.batchNum) state gpu info) ∧
      epoch.Simulates useAsync (epoch.views i) state
        (epoch.alone (epoch.startProgram useAsync i)).1
        (epoch.alone (epoch.startProgram useAsync i)).2) ?first ?inside ?next batch
  case first =>
      rw [Nat.zero_div]
      exact ⟨⟨_, _, epoch.loaded_first⟩, epoch.simulates_first useAsync⟩
  case inside =>
      rintro i - same ⟨⟨gpu, info, loaded⟩, simulates⟩
      rw [same, startProgram, epoch.runBatchProgram_inside useAsync same, List.append_nil]
      exact ⟨⟨_, info, loaded.updates (epoch.updates i)⟩, simulates_finished simulates⟩
  case next =>
      rintro i later opens ⟨⟨gpu, info, loaded⟩, simulates⟩
      have hasNext : epoch.HasBlock (i / epoch.sizes.batchNum + 1) := opens ▸ later.hasBlock
      have closed := loaded.updates (epoch.updates i)
      rw [opens, startProgram, epoch.runBatchProgram_next useAsync opens, alone_append]
      exact ⟨⟨_, _, (closed.trigger hasNext).1⟩, (simulates_finished simulates).next closed hasNext⟩

/-- Run alone, both programs do what the run does: the batches see the same buffers, and
the host tables are the same in the end. -/
theorem alone_program (epoch : Epoch φ ψ α) (useAsync : Bool) :
    (epoch.alone (epoch.program useAsync)).1.seen = epoch.views (epoch.lastBatch + 1) ∧
      (epoch.alone (epoch.program useAsync)).2.host = epoch.ended.host := by
  obtain ⟨⟨gpu, info, loaded⟩, simulates⟩ :=
    epoch.simulates_started useAsync epoch.hasBatch_lastBatch
  have closed := simulates_finished simulates
  have last : epoch.Loaded epoch.lastBlock (epoch.finished epoch.lastBatch) _ info :=
    loaded.updates (epoch.updates epoch.lastBatch)
  have idle : ¬epoch.Ahead useAsync (epoch.finished epoch.lastBatch).curBlock := by
    rw [last.curBlock]
    exact fun ahead => epoch.not_hasBlock_lastBlock ahead.2.2
  have own := closed.gpu.trans last.loaded
  rw [program, alone_append]
  refine ⟨closed.seen, ?_⟩
  rw [ended, BufferState.refreshMemory_host last.loaded, ← closed.host idle]
  simp only [refreshProgram, runSeq, service, handle, runSteps, List.foldl_cons, List.foldl_nil,
    Worker.write, Main.buffer, own, Option.getD_some]

end Epoch

end Dolphin.Buffer
