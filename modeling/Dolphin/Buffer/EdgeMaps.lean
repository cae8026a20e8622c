import Dolphin.Buffer.Interleavings

/-!
# The edge map of a request

Without edge features `part_edge_map` stays `None`. The request for a block carries the
map, and where it is taken to the host first, `None.cpu()` raises before anything is
sent: without `use_async` at the second block, with `use_async` and more than one
layer at the first. Only a request that is sent ahead for a one-layer sampler carries
`None` itself, which the worker does not read.
-/

namespace Dolphin.Buffer

open Dolphin.Sampler Dolphin.Semantics

/-- An epoch of a dataset with or without edge features. -/
structure Setting (φ ψ α : Type) where
  epoch : Epoch φ ψ α
  /-- `has_ef`. -/
  hasEf : Bool
  /-- `transfer_cpu`: the sampler has more than one layer. -/
  transferCpu : Bool
  /-- Without them no file and no negative has an edge: an empty map stands for `None`, and
  the worker is asked for the rows of no edge. -/
  edgeless : hasEf = false → ∀ block,
    (epoch.parts block).edge.posMap.ids = [] ∧ (epoch.neg block).eids.ids = []

namespace Setting

variable {φ ψ α : Type} [Inhabited φ] [Inhabited ψ] [Inhabited α] (setting : Setting φ ψ α)

/-! ## The programs -/

/-- `self.part_edge_map.cpu()`. -/
def partEdgeMapCpu : List (Option (MainCommand φ ψ α)) := if setting.hasEf then [] else [none]

/-- The current block is brought into the buffer. -/
def loadProgram (useAsync : Bool) (block : Nat) : List (Option (MainCommand φ ψ α)) :=
  (if block = 0 ∨ useAsync = true then [] else setting.partEdgeMapCpu) ++
    (setting.epoch.loadProgram useAsync block).map some

/-- What happens with the request for the next block. -/
def requestProgram (useAsync : Bool) (block : Nat) : List (Option (MainCommand φ ψ α)) :=
  (if useAsync = true ∧ setting.transferCpu = true ∧
        (setting.epoch.preNegSample (block + 1)).isSome then
      setting.partEdgeMapCpu
    else []) ++
    (setting.epoch.requestProgram useAsync block).map some

/-- `run_batch` at the first batch of a block. -/
def triggerProgram (useAsync : Bool) (block : Nat) : List (Option (MainCommand φ ψ α)) :=
  some (.run fun main =>
      { main with memoryInfo := setting.epoch.memoryInfo main.curBlock main.gpu }) ::
    (setting.loadProgram useAsync block ++ (setting.requestProgram useAsync block ++
      [some (.run fun main => { main with curBlock := main.curBlock + 1 })]))

/-- `run_batch` for a batch. -/
def runBatchProgram (useAsync : Bool) (i : Nat) : List (Option (MainCommand φ ψ α)) :=
  if i * setting.epoch.sizes.trainBatchSize % setting.epoch.sizes.preSampleSize = 0 then
    setting.triggerProgram useAsync (i / setting.epoch.sizes.batchNum)
  else []

/-- A batch. -/
def batchProgram (useAsync : Bool) (i : Nat) : List (Option (MainCommand φ ψ α)) :=
  setting.runBatchProgram useAsync i ++ (setting.epoch.trainProgram i).map some

/-- The first batches of an epoch. -/
def batchesProgram (useAsync : Bool) : Nat → List (Option (MainCommand φ ψ α))
  | 0 => []
  | i + 1 => batchesProgram useAsync i ++ setting.batchProgram useAsync i

/-- An epoch of the main process. -/
def program (useAsync : Bool) : List (Option (MainCommand φ ψ α)) :=
  setting.batchesProgram useAsync (setting.epoch.lastBatch + 1) ++ Epoch.refreshProgram.map some

/-- The processes at the beginning of an epoch. -/
def processes (useAsync : Bool) : System (Main φ ψ α) (Worker φ ψ α) (Request α) Pipe :=
  ⟨Epoch.mainInitial, untilRaised (setting.program useAsync), setting.epoch.workerInitial, .quiet⟩

/-! ## Where they raise -/

/-- `run_batch` raises at the beginning of the block. -/
def Raises (useAsync : Bool) (block : Nat) : Prop :=
  setting.hasEf = false ∧
    if useAsync = true then setting.transferCpu = true ∧ setting.epoch.HasBlock (block + 1)
    else block ≠ 0

variable {setting}

omit [Inhabited φ] [Inhabited ψ] [Inhabited α] in
theorem preNegSample_isSome (block : Nat) :
    (setting.epoch.preNegSample block).isSome ↔ setting.epoch.HasBlock block := by
  rw [setting.epoch.preNegSample_eq]
  split
  case isTrue has => simp [has]
  case isFalse has => simp [has]

/-- A block that does not raise begins as with edge features. -/
theorem triggerProgram_passes {useAsync : Bool} {block : Nat}
    (passes : ¬setting.Raises useAsync block) :
    setting.triggerProgram useAsync block =
      (setting.epoch.triggerProgram useAsync block).map some := by
  have whole : setting.loadProgram useAsync block ++ setting.requestProgram useAsync block =
      (setting.epoch.loadProgram useAsync block ++
        setting.epoch.requestProgram useAsync block).map some := by
    cases ef : setting.hasEf with
    | true => simp [loadProgram, requestProgram, partEdgeMapCpu, ef]
    | false =>
        cases useAsync with
        | true =>
            have quiet : ¬(setting.transferCpu = true ∧
                (setting.epoch.preNegSample (block + 1)).isSome = true) := by
              rw [preNegSample_isSome]
              exact fun raised => passes ⟨ef, raised⟩
            simp [loadProgram, requestProgram, quiet]
        | false =>
            have first : block = 0 := by
              by_contra later
              exact passes ⟨ef, later⟩
            simp [loadProgram, requestProgram, first]
  rw [triggerProgram, Epoch.triggerProgram, ← List.append_assoc, whole]
  simp

/-- What is run of a block that raises. -/
theorem untilRaised_trigger {useAsync : Bool} {block : Nat}
    (raises : setting.Raises useAsync block) (rest : List (Option (MainCommand φ ψ α))) :
    untilRaised (setting.triggerProgram useAsync block ++ rest) =
      .run (fun main =>
          { main with memoryInfo := setting.epoch.memoryInfo main.curBlock main.gpu }) ::
        if useAsync = true then setting.epoch.loadProgram useAsync block else [] := by
  obtain ⟨ef, at_⟩ := raises
  cases useAsync with
  | true =>
      have sends := (preNegSample_isSome (block + 1)).mpr at_.2
      simp only [triggerProgram, List.cons_append, untilRaised, loadProgram, requestProgram,
        partEdgeMapCpu, ef, at_.1, sends, or_true, and_self, if_true, List.nil_append,
        List.append_assoc, untilRaised_append]
      simp [untilRaised]
  | false =>
      have later : block ≠ 0 := at_
      simp [triggerProgram, loadProgram, partEdgeMapCpu, ef, later, untilRaised]

/-- The first batches, as long as no block raises. -/
theorem batchesProgram_passes {useAsync : Bool} {count : Nat}
    (passes : ∀ i < count, ¬setting.Raises useAsync (i / setting.epoch.sizes.batchNum)) :
    setting.batchesProgram useAsync count =
      (setting.epoch.batchesProgram useAsync count).map some := by
  induction count with
  | zero => rfl
  | succ i ih =>
      have before := ih fun j less => passes j (Nat.lt_succ_of_lt less)
      have own : setting.runBatchProgram useAsync i =
          (setting.epoch.runBatchProgram useAsync i).map some := by
        rw [runBatchProgram, Epoch.runBatchProgram]
        split
        case isTrue opens => exact triggerProgram_passes (passes i (Nat.lt_succ_self i))
        case isFalse inside => rfl
      rw [batchesProgram, Epoch.batchesProgram, before, batchProgram, own, Epoch.batchProgram]
      simp

/-- Later batches come behind. -/
theorem batchesProgram_prefix (useAsync : Bool) {i count : Nat} (less : i < count) :
    ∃ rest, setting.batchesProgram useAsync count =
      setting.batchesProgram useAsync i ++ (setting.batchProgram useAsync i ++ rest) := by
  induction count with
  | zero => exact absurd less (Nat.not_lt_zero i)
  | succ count ih =>
      obtain earlier | rfl := Nat.lt_succ_iff_lt_or_eq.mp less
      · obtain ⟨rest, split⟩ := ih earlier
        refine ⟨rest ++ setting.batchProgram useAsync count, ?_⟩
        rw [batchesProgram, split]
        simp only [List.append_assoc]
      · exact ⟨[], by rw [batchesProgram, List.append_nil]⟩

/-- If no block raises, the processes are those of an epoch with edge features. -/
theorem processes_passes {useAsync : Bool}
    (passes : ∀ block, setting.epoch.HasBlock block → ¬setting.Raises useAsync block) :
    setting.processes useAsync = setting.epoch.processes useAsync := by
  have batches : setting.batchesProgram useAsync (setting.epoch.lastBatch + 1) = _ :=
    batchesProgram_passes fun i less => passes _
      (setting.epoch.hasBatch_lastBatch.mono (Nat.le_of_lt_succ less)).hasBlock
  rw [processes, program, batches, ← List.map_append, untilRaised_map]
  rfl

/-! ## What the batches see -/

omit [Inhabited φ] [Inhabited ψ] [Inhabited α] in
/-- The second block begins with a batch of the epoch. -/
theorem batchNum_le_lastBatch (next : setting.epoch.HasBlock 1) :
    setting.epoch.sizes.batchNum ≤ setting.epoch.lastBatch := by
  refine (Nat.le_div_iff_mul_le setting.epoch.trainBatchSize_pos).mpr (Nat.le_sub_one_of_lt ?_)
  rw [Epoch.HasBlock, BlockConfig.blockStart, Nat.one_mul] at next
  exact next

/-- Without `use_async` the second block raises behind the batches of the first. -/
theorem program_sync (ef : setting.hasEf = false) (next : setting.epoch.HasBlock 1) :
    untilRaised (setting.program false) =
      setting.epoch.batchesProgram false setting.epoch.sizes.batchNum ++
        [.run fun main =>
          { main with memoryInfo := setting.epoch.memoryInfo main.curBlock main.gpu }] := by
  have positive := setting.epoch.batchNum_pos
  have opens : setting.runBatchProgram false setting.epoch.sizes.batchNum =
      setting.triggerProgram false 1 := by
    rw [runBatchProgram, if_pos ((setting.epoch.left_mod _).mpr (Nat.mod_self _)),
      Nat.div_self positive]
  have raises : setting.Raises false 1 := ⟨ef, Nat.one_ne_zero⟩
  have before : setting.batchesProgram false setting.epoch.sizes.batchNum = _ :=
    batchesProgram_passes fun i less raised => raised.2 (Nat.div_eq_of_lt less)
  obtain ⟨rest, split⟩ := setting.batchesProgram_prefix false
    (Nat.lt_succ_of_le (batchNum_le_lastBatch next))
  rw [program, split, before, batchProgram, opens]
  simp only [List.append_assoc]
  rw [untilRaised_append, untilRaised_trigger raises]
  rfl

/-- With `use_async` and more than one layer the first block raises. -/
theorem program_async (ef : setting.hasEf = false) (transferCpu : setting.transferCpu = true)
    (next : setting.epoch.HasBlock 1) :
    untilRaised (setting.program true) =
      .run (fun main =>
          { main with memoryInfo := setting.epoch.memoryInfo main.curBlock main.gpu }) ::
        setting.epoch.loadProgram true 0 := by
  have opens : setting.runBatchProgram true 0 = setting.triggerProgram true 0 := by
    simp [runBatchProgram]
  have raises : setting.Raises true 0 := ⟨ef, transferCpu, next⟩
  obtain ⟨rest, split⟩ := setting.batchesProgram_prefix true (Nat.succ_pos setting.epoch.lastBatch)
  rw [program, split, batchProgram, opens]
  simp only [batchesProgram, List.nil_append, List.append_assoc]
  rw [untilRaised_trigger raises]
  rfl

/-- Without `use_async` the batches of the first block are all that is trained. -/
theorem outcome_sync (ef : setting.hasEf = false) (next : setting.epoch.HasBlock 1)
    {later : System (Main φ ψ α) (Worker φ ψ α) (Request α) Pipe}
    (steps : Steps setting.epoch.service (setting.processes false) later) :
    (∃ last, Steps setting.epoch.service later last ∧ last.program = []) ∧
      (later.program = [] →
        later.client.seen = setting.epoch.views setting.epoch.sizes.batchNum) := by
  obtain ⟨batch, count⟩ : ∃ i, i + 1 = setting.epoch.sizes.batchNum :=
    ⟨_, Nat.sub_add_cancel setting.epoch.batchNum_pos⟩
  have hasBatch : setting.epoch.HasBatch batch := by
    refine setting.epoch.hasBatch_lastBatch.mono ?_
    have last := batchNum_le_lastBatch next
    omega
  have idle : setting.epoch.pending false (batch / setting.epoch.sizes.batchNum + 1) =
      Epoch.settled := if_neg fun ahead => Bool.noConfusion ahead.1
  have disciplined : Disciplined setting.epoch.service Epoch.settled
      (untilRaised (setting.program false)) Epoch.settled := by
    have batches := Epoch.disciplined_batches false hasBatch
    rw [idle, count] at batches
    rw [program_sync ef next]
    exact batches.append rfl
  obtain ⟨completes, outcome⟩ := steps_outcome disciplined _ _ steps
  refine ⟨completes, fun ended => ?_⟩
  obtain ⟨client, -⟩ := outcome ended
  obtain ⟨-, simulates⟩ := setting.epoch.simulates_started false hasBatch
  have seen := (Epoch.simulates_finished simulates).seen
  rw [count] at seen
  rw [client, program_sync ef next, runSeq_append]
  exact seen

/-- With `use_async` and more than one layer no batch is trained. -/
theorem outcome_async (ef : setting.hasEf = false) (transferCpu : setting.transferCpu = true)
    (next : setting.epoch.HasBlock 1)
    {later : System (Main φ ψ α) (Worker φ ψ α) (Request α) Pipe}
    (steps : Steps setting.epoch.service (setting.processes true) later) :
    (∃ last, Steps setting.epoch.service later last ∧ last.program = []) ∧
      (later.program = [] → later.client.seen = []) := by
  have idle : setting.epoch.pending true 0 = Epoch.settled :=
    if_neg fun ahead => absurd ahead.2.1 (Nat.lt_irrefl 0)
  have disciplined : Disciplined setting.epoch.service Epoch.settled
      (untilRaised (setting.program true)) Epoch.settled := by
    have load := Epoch.disciplined_load true (next.mono (Nat.zero_le 1))
    rw [idle] at load
    rw [program_async ef transferCpu next]
    exact load
  obtain ⟨completes, outcome⟩ := steps_outcome disciplined _ _ steps
  refine ⟨completes, fun ended => ?_⟩
  obtain ⟨client, -⟩ := outcome ended
  have loads := @Epoch.loads_first _ _ _ _ _ _ setting.epoch setting.epoch.workerInitial true
    { Epoch.mainInitial with memoryInfo := setting.epoch.memoryInfo 0 none } rfl rfl
    (SharedTensors.zeros_shaped _ _)
  rw [client, program_async ef transferCpu next, runSeq]
  exact congrArg Main.seen loads.main

/-- Without edge features the two settings train different numbers of batches. -/
theorem seen_differs (ef : setting.hasEf = false) (next : setting.epoch.HasBlock 1)
    {ahead direct : System (Main φ ψ α) (Worker φ ψ α) (Request α) Pipe}
    (async : Steps setting.epoch.service (setting.processes true) ahead)
    (sync : Steps setting.epoch.service (setting.processes false) direct)
    (aheadOver : ahead.program = []) (directOver : direct.program = []) :
    ahead.client.seen.length ≠ direct.client.seen.length := by
  have last := batchNum_le_lastBatch next
  have positive := setting.epoch.batchNum_pos
  have trained : direct.client.seen.length = setting.epoch.sizes.batchNum := by
    rw [(outcome_sync ef next sync).2 directOver, Epoch.views, List.length_map, List.length_range]
  cases transferCpu : setting.transferCpu with
  | true =>
      rw [trained, (outcome_async ef transferCpu next async).2 aheadOver, List.length_nil]
      omega
  | false =>
      have passes : setting.processes true = setting.epoch.processes true :=
        processes_passes fun block _ raises =>
          Bool.noConfusion (transferCpu.symm.trans raises.2.1)
      rw [passes] at async
      rw [trained, ((setting.epoch.interleaving_outcome true async).2 aheadOver).1, Epoch.views,
        List.length_map, List.length_range]
      omega

/-- Three blocks with a one-layer sampler and without edge features. -/
def noEdgeFeats : Setting Nat Nat Nat where
  epoch :=
    { Epoch.recurringBlocks with
      parts := fun block =>
        { Epoch.recurringBlocks.parts block with edge := ⟨.ofList [], ⟨[], [], []⟩, [], []⟩ }
      edgeFits := fun _ => Nat.zero_le _ }
  hasEf := false
  transferCpu := false
  edgeless := fun _ _ => ⟨rfl, rfl⟩

end Setting

end Dolphin.Buffer
