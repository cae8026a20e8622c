import Dolphin.Buffer.Async
import Dolphin.Buffer.NodeRows

/-!
# Every interleaving

The main process waits on each pipe for the replies it is owed and touches the shared
tensors only when nothing is outstanding: with `use_async` one reply stays owed on
`prefetch_only_conn` while a block is trained, and `run_batch` receives it before it
goes on. So no interleaving blocks, and each ends like the program alone.
-/

namespace Dolphin.Buffer

open Dolphin.Semantics

namespace Epoch

variable {φ ψ α : Type} {epoch : Epoch φ ψ α}

/-! ## What is owed -/

instance (useAsync : Bool) (block : Nat) : Decidable (epoch.Ahead useAsync block) :=
  inferInstanceAs (Decidable (_ ∧ _))

/-- Nothing is owed. -/
def settled : Pipe → Nat := fun _ => 0

/-- The reply of a worker that is ahead. -/
def owing : Pipe → Nat := Function.update settled .onlyConn 1

/-- What is owed when a block is about to begin. -/
def pending (epoch : Epoch φ ψ α) (useAsync : Bool) (block : Nat) : Pipe → Nat :=
  if epoch.Ahead useAsync block then owing else settled

theorem owing_received :
    Function.update owing .onlyConn (owing .onlyConn - 1) = settled := by
  rw [owing, Function.update_idem]
  exact Function.update_eq_self _ _

variable [Inhabited φ] [Inhabited ψ] [Inhabited α]

/-! ## The programs -/

/-- A request whose reply is received next. -/
theorem disciplined_roundTrip {program : List (MainCommand φ ψ α)} {pipe : Pipe}
    {request : Main φ ψ α → Request α} (reply : ∀ main, (request main).reply = pipe)
    (rest : Disciplined epoch.service settled program settled) :
    Disciplined epoch.service settled (.send request :: .recv pipe :: program) settled := by
  refine ⟨pipe, reply, ?_, ?_⟩
  · simp
  · rw [Function.update_idem, Function.update_self]
    have same : Function.update settled pipe (settled pipe + 1 - 1) = settled :=
      Function.update_eq_self pipe settled
    rw [same]
    exact rest

theorem disciplined_analyze (epoch : Epoch φ ψ α) :
    Disciplined epoch.service settled epoch.analyzeProgram settled := by
  cases disk : epoch.config.useDisk with
  | true =>
      simp only [analyzeProgram, disk, if_true]
      exact rfl
  | false =>
      have quiet : ∀ pipe, settled pipe = 0 := fun _ => rfl
      simp only [analyzeProgram, disk]
      refine disciplined_roundTrip (fun _ => rfl) ⟨quiet, ?_⟩
      refine disciplined_roundTrip (fun _ => rfl) ⟨quiet, ?_⟩
      exact disciplined_roundTrip (fun _ => rfl) ⟨quiet, rfl⟩

theorem disciplined_prefetchAfter (epoch : Epoch φ ψ α) :
    Disciplined epoch.service owing prefetchAfterProgram settled := by
  refine ⟨Nat.one_pos, ?_⟩
  rw [owing_received]
  exact ⟨fun _ => rfl, fun _ => rfl, fun _ => rfl, rfl⟩

/-- Loading a block receives what is owed for it. -/
theorem disciplined_load (useAsync : Bool) {block : Nat} (hasBlock : epoch.HasBlock block) :
    Disciplined epoch.service (epoch.pending useAsync block) (epoch.loadProgram useAsync block)
      settled := by
  rw [loadProgram]
  split
  case isTrue first =>
      have idle : ¬epoch.Ahead useAsync block := fun ahead => absurd first ahead.2.1.ne'
      rw [pending, if_neg idle]
      exact disciplined_roundTrip (fun _ => rfl) epoch.disciplined_analyze
  case isFalse later =>
      cases useAsync with
      | true =>
          rw [pending, if_pos ⟨rfl, Nat.pos_of_ne_zero later, hasBlock⟩]
          exact epoch.disciplined_prefetchAfter
      | false =>
          have idle : ¬epoch.Ahead false block := fun ahead => Bool.noConfusion ahead.1
          rw [pending, if_neg idle]
          exact ⟨.onlyConn, fun _ => rfl, epoch.disciplined_prefetchAfter⟩

/-- A request that is sent ahead is owed for the next block. -/
theorem disciplined_request (epoch : Epoch φ ψ α) (useAsync : Bool) (block : Nat) :
    Disciplined epoch.service settled (epoch.requestProgram useAsync block)
      (epoch.pending useAsync (block + 1)) := by
  rw [requestProgram, epoch.preNegSample_eq]
  by_cases next : epoch.HasBlock (block + 1)
  · rw [if_pos next]
    cases useAsync with
    | true =>
        rw [pending, if_pos ⟨rfl, Nat.succ_pos block, next⟩]
        exact ⟨.onlyConn, fun _ => rfl, rfl⟩
    | false =>
        rw [pending, if_neg fun ahead => Bool.noConfusion ahead.1]
        exact rfl
  · rw [if_neg next, pending, if_neg fun ahead => next ahead.2.2]
    exact rfl

theorem disciplined_trigger (useAsync : Bool) {block : Nat} (hasBlock : epoch.HasBlock block) :
    Disciplined epoch.service (epoch.pending useAsync block) (epoch.triggerProgram useAsync block)
      (epoch.pending useAsync (block + 1)) := by
  have request := (epoch.disciplined_request useAsync block).append
    (show Disciplined epoch.service _ [.run fun main => { main with curBlock := main.curBlock + 1 }]
      (epoch.pending useAsync (block + 1)) from rfl)
  exact (disciplined_load useAsync hasBlock).append request

/-- After a batch the reply for the next block is owed. -/
theorem disciplined_batches (useAsync : Bool) {i : Nat} (batch : epoch.HasBatch i) :
    Disciplined epoch.service settled (epoch.batchesProgram useAsync (i + 1))
      (epoch.pending useAsync (i / epoch.sizes.batchNum + 1)) := by
  have train : ∀ (j : Nat) (owed : Pipe → Nat),
      Disciplined epoch.service owed (epoch.trainProgram j) owed := fun _ _ => rfl
  induction i with
  | zero =>
      have idle : epoch.pending useAsync 0 = settled :=
        if_neg fun ahead => absurd ahead.2.1 (Nat.lt_irrefl 0)
      have first := disciplined_trigger useAsync (batch.hasBlock (i := 0))
      rw [Nat.zero_div, idle] at first
      have program : epoch.batchesProgram useAsync 1 =
          epoch.triggerProgram useAsync 0 ++ epoch.trainProgram 0 := by
        simp [batchesProgram, batchProgram, runBatchProgram]
      rw [program, Nat.zero_div]
      exact first.append (train 0 _)
  | succ i ih =>
      have before := ih (batch.mono (Nat.le_succ i))
      refine before.append ?_
      rw [batchProgram]
      refine Disciplined.append ?_ (train (i + 1) _)
      by_cases within : epoch.sizes.batchNum ∣ i + 1
      · have next := Nat.succ_div_of_dvd within
        rw [epoch.runBatchProgram_next useAsync next, next]
        exact disciplined_trigger useAsync (next ▸ batch.hasBlock)
      · have same := Nat.succ_div_of_not_dvd within
        rw [epoch.runBatchProgram_inside useAsync same, same]
        exact rfl

/-- The main process is disciplined, and in the end nothing is owed. -/
theorem disciplined_program (epoch : Epoch φ ψ α) (useAsync : Bool) :
    Disciplined epoch.service settled (epoch.program useAsync) settled := by
  have batches := disciplined_batches useAsync epoch.hasBatch_lastBatch
  have closed : epoch.pending useAsync (epoch.lastBatch / epoch.sizes.batchNum + 1) = settled :=
    if_neg fun ahead => epoch.not_hasBlock_lastBlock ahead.2.2
  rw [closed] at batches
  refine batches.append ⟨fun _ => rfl, ?_⟩
  exact disciplined_roundTrip (fun _ => rfl) rfl

/-! ## The interleavings -/

/-- Every interleaving can be completed, and when it is complete the batches have seen
the buffers of the run and the host tables are those of its end. -/
theorem interleaving_outcome (epoch : Epoch φ ψ α) (useAsync : Bool)
    {later : System (Main φ ψ α) (Worker φ ψ α) (Request α) Pipe}
    (steps : Steps epoch.service (epoch.processes useAsync) later) :
    (∃ last, Steps epoch.service later last ∧ last.program = []) ∧
      (later.program = [] → later.client.seen = epoch.views (epoch.lastBatch + 1) ∧
        later.memory.host = epoch.ended.host) := by
  obtain ⟨completes, outcome⟩ := steps_outcome (epoch.disciplined_program useAsync) _ _ steps
  obtain ⟨seen, host⟩ := epoch.alone_program useAsync
  refine ⟨completes, fun closed => ?_⟩
  obtain ⟨client, memory, -⟩ := outcome closed
  exact ⟨client ▸ seen, memory ▸ host⟩

/-- Under every interleaving, with `use_async` on or off, a batch sees the memory of the
reference run. -/
theorem seen_eq_reference (updates : epoch.RootUpdates) (useAsync : Bool)
    {later : System (Main φ ψ α) (Worker φ ψ α) (Request α) Pipe}
    (steps : Steps epoch.service (epoch.processes useAsync) later) (ended : later.program = [])
    {i : Nat} (batch : epoch.HasBatch i) :
    ∃ gpu, later.client.seen[i]? = some (some gpu) ∧
      gpu.node.map = epoch.nodeMap (i / epoch.sizes.batchNum) ∧
      gpu.memory = gpu.node.map.map (epoch.table i) := by
  obtain ⟨gpu, synced⟩ := updates.synced batch
  have seen := ((epoch.interleaving_outcome useAsync steps).2 ended).1
  have below : i ≤ epoch.lastBatch :=
    (Nat.le_div_iff_mul_le epoch.trainBatchSize_pos).mpr (Nat.le_sub_one_of_lt batch)
  refine ⟨gpu, ?_, synced.loaded.nodeMap, synced.memory⟩
  rw [seen, views, List.getElem?_map, List.getElem?_range (Nat.lt_succ_of_le below),
    Option.map_some, synced.loaded.loaded]

end Epoch

end Dolphin.Buffer
