import Dolphin.Train.TrainLoop

/-!
# The updates of a batch

With one mailbox slot the two updates behind the model are two calls on the sources and
destinations of the batch, the same calls for the buffer and for tables of all nodes.
-/

namespace Dolphin.Train

open Dolphin.Buffer Dolphin.Memory Dolphin.Semantics Dolphin.Tensor

variable {φ ψ α : Type} [Inhabited α]

/-- A mailbox whose positions have not moved. -/
def freshBox (param : MemoryParam) (store : RowStore φ ψ α) : MailBox φ ψ α :=
  ⟨param, store, fun _ => 0⟩

/-- An operation of the mailbox that makes some calls on some nodes, in the buffer as in
the tables. -/
structure MakesCalls (param : MemoryParam) (nodes : List Nat)
    (operation : MailBox φ ψ α → MailBox φ ψ α) (calls : List (Update α)) : Prop where
  nid : ∀ call ∈ calls, ∀ v ∈ call.nid, v ∈ nodes
  buffer : ∀ gpu, operation (freshBox param (.buffer gpu)) =
    freshBox param (.buffer (gpu.updates calls))
  tables : ∀ rows, operation (freshBox param (.tables rows)) =
    freshBox param (.tables (tableUpdates rows calls))

omit [Inhabited α] in
/-- The calls of two operations, one after the other. -/
theorem MakesCalls.comp {param : MemoryParam} {nodes : List Nat}
    {first second : MailBox φ ψ α → MailBox φ ψ α} {calls later : List (Update α)}
    (makesFirst : MakesCalls param nodes first calls)
    (makesSecond : MakesCalls param nodes second later) :
    MakesCalls param nodes (fun box => second (first box)) (calls ++ later) where
  nid := by
    intro call member
    exact (List.mem_append.mp member).elim (makesFirst.nid call) (makesSecond.nid call)
  buffer := by
    intro gpu
    rw [makesFirst.buffer, makesSecond.buffer, Gpu.updates, Gpu.updates, Gpu.updates,
      List.foldl_append]
  tables := by
    intro rows
    rw [makesFirst.tables, makesSecond.tables, tableUpdates, tableUpdates, tableUpdates,
      List.foldl_append]

/-- The call of `update_mailbox` on a batch, with one mailbox slot. -/
def mailboxCall (param : MemoryParam) (batch : EdgeBatch α) (memory edgeFeats : List (List α)) :
    Update α :=
  let memSrc := memory.take batch.src.length
  let memDst := (memory.take (batch.src.length * 2)).drop batch.src.length
  let mail := interleave (mailRows param memSrc memDst edgeFeats)
    (mailRows param memDst memSrc edgeFeats)
  let perm := lastOccurrences batch.mailNodes
  .mailbox (gather batch.mailNodes perm) (gather mail perm)
    (gather (batch.times ++ batch.times) perm) none

/-- The call of `update_memory` on a batch. -/
def memoryCall (batch : EdgeBatch α) (memory : List (List α)) (ts : List α) : Update α :=
  let perm := lastOccurrences (batch.src ++ batch.dst)
  .memory (unique (batch.src ++ batch.dst)) (gather (memory.take (batch.src.length * 2)) perm)
    (gather (ts.take (batch.src.length * 2)) perm)

/-- `update_mailbox`. -/
theorem updateMailbox_makesCall {param : MemoryParam} (single : param.mailboxSize ≤ 1)
    (batch : EdgeBatch α) (memory edgeFeats : List (List α)) :
    MakesCalls param (batch.src ++ batch.dst) (fun box : MailBox φ ψ α =>
      box.updateMailbox memory batch.rootNodes batch.ts edgeFeats batch.negSamples)
      [mailboxCall param batch memory edgeFeats] := by
  have sole : ¬1 < param.mailboxSize := Nat.not_lt.mpr single
  refine ⟨?_, fun gpu => ?_, fun rows => ?_⟩
  · intro other only v member
    obtain rfl := List.mem_singleton.mp only
    change v ∈ gather batch.mailNodes (lastOccurrences batch.mailNodes) at member
    rw [gather_lastOccurrences_self, mem_unique] at member
    exact EdgeBatch.mailNodes_iff.mp member
  · simp only [freshBox, MailBox.updateMailbox, batch.rootNodes_div, batch.rootNodes_src,
      batch.rootNodes_dst, batch.ts_take]
    rfl
  · -- the pointers of the tables stay at the first slot, where the buffer writes
    simp only [freshBox, MailBox.updateMailbox, batch.rootNodes_div, batch.rootNodes_src,
      batch.rootNodes_dst, batch.ts_take, MailBox.deliver, MailBox.advance, if_neg sole]
    rfl

/-- `update_memory`, as the nodes of the updater start with the roots of the batch. -/
theorem updateMemory_makesCall (param : MemoryParam) (batch : EdgeBatch α) (memory : List (List α))
    {nid : List Nat} (roots : batch.rootNodes <+: nid) (ts : List α) :
    MakesCalls param (batch.src ++ batch.dst) (fun box : MailBox φ ψ α =>
      box.updateMemory (some nid) memory batch.rootNodes ts batch.negSamples)
      [memoryCall batch memory ts] := by
  obtain ⟨rest, rfl⟩ := roots
  have taken : (batch.rootNodes ++ rest).take (batch.src.length * 2) = batch.src ++ batch.dst := by
    rw [EdgeBatch.rootNodes, List.append_assoc, List.take_left' batch.nodes_length]
  refine ⟨?_, fun gpu => ?_, fun rows => ?_⟩
  · intro other only v member
    obtain rfl := List.mem_singleton.mp only
    exact mem_unique.mp member
  · simp only [freshBox, MailBox.updateMemory, batch.rootNodes_div, taken]
    rfl
  · simp only [freshBox, MailBox.updateMemory, batch.rootNodes_div, taken]
    rfl

end Dolphin.Train
