import Dolphin.Semantics.Parties
import Mathlib.Data.List.Basic

/-!
# Maps that do not fit the shared tensors

Before it writes a block, the worker compares the maps with the shared tensors. If a map
is too long it sends a message on the pipe of the replies and waits on the same pipe for
an answer. The main process takes whatever comes first as the reply, and never sends on
that pipe. Here a shared tensor is known by the block that was written to it last, and of
the maps and masks only the lengths are kept, on which the processes can fail.
-/

namespace Dolphin.Buffer.Extensions

open Dolphin.Semantics

/-! ## The program -/

/-- The tensors that `prefetch_after` hands over, `shared_ret_len` among them. -/
inductive SharedTensor where
  | sharedRetLen
  | partNodeMap
  | partNodeFeats
  | partEdgeMap
  | partEdgeFeats
  | partMemory
  | partMemoryTs
  | partMailbox
  | partMailboxTs
  | preSameNodes
  | curSameNodes
  | nodeDInd
  | edgeDInd
  deriving DecidableEq

/-- What the exchange of an epoch depends on; the lengths are those of the maps that are
built for a block. -/
structure Exchange where
  blocks : Nat
  useAsync : Bool
  /-- The sampler has more than one layer. -/
  transferCpu : Bool
  useDisk : Bool
  useMemory : Bool
  hasEdgeFeat : Bool
  nodeRoom : Nat
  edgeRoom : Nat
  nodeLen : Nat → Nat
  edgeLen : Nat → Nat
  /-- A block has the nodes of its edges. -/
  populated : ∀ block, 0 < nodeLen block

/-- A request; all but `pre_fetch` are answered on the pipe they come from. With
`pre_fetch` goes `part_node_map`, here its length. -/
inductive Request where
  | call (function name : String)
  | preFetch (block mapLen : Nat)
  deriving DecidableEq

/-- What the worker sends on `prefetch_conn`: the result of a block, which is `None`, or
one of the two messages. -/
inductive Reply where
  | result (block : Nat)
  | nodeExtension (block : Nat)
  | edgeExtension (block : Nat)
  deriving DecidableEq

/-- What the main process does next. -/
inductive MainOp where
  | call (function name : String)
  /-- `prefetch_conn.recv()`. -/
  | recvConn
  /-- The first block is in the buffer. -/
  | analyze
  /-- `self.part_edge_map.cpu()`. -/
  | partEdgeMapCpu
  | preFetch (block : Nat)
  /-- `prefetch_only_conn.recv()` for a block. -/
  | recvOnly (block : Nat)
  /-- A read of `prefetch_after` for a block. -/
  | read (block : Nat) (tensor : SharedTensor)
  /-- `part_memory[cur_same_node] = self.part_memory[pre_same_nodes]`. -/
  | mergeMemory (block : Nat)
  | train (block : Nat)
  deriving DecidableEq

namespace Exchange

variable (exchange : Exchange)

/-- The tensors that the worker writes, in order. -/
def written : List SharedTensor :=
  [.sharedRetLen, .partNodeMap, .partNodeFeats] ++
    (if exchange.hasEdgeFeat then [.partEdgeMap, .partEdgeFeats] else []) ++
    (if exchange.useMemory then
      [.partMemory, .partMemoryTs, .partMailbox, .partMailboxTs, .preSameNodes, .curSameNodes]
    else []) ++
    [.nodeDInd] ++ (if exchange.hasEdgeFeat then [.edgeDInd] else [])

/-- The tensors that the main process reads, in order. -/
def readBack : List SharedTensor :=
  [.sharedRetLen, .nodeDInd] ++
    (if exchange.hasEdgeFeat then [.edgeDInd, .partEdgeMap, .partEdgeFeats] else []) ++
    [.partNodeMap, .partNodeFeats] ++
    (if exchange.useMemory then
      [.partMemory, .partMemoryTs, .partMailbox, .partMailboxTs, .preSameNodes, .curSameNodes]
    else [])

/-- The names of the four memory tables. -/
def memoryTables : List String := ["memory", "memory_ts", "mailbox", "mailbox_ts"]

/-- The requests of the first block: the bucket caches, and what `analyze` selects. -/
def firstCalls : List (String × String) :=
  ("init_bucket_cache", "") ::
    (if exchange.useDisk then []
    else
      ("select_index", "node_feats") ::
        ((if exchange.hasEdgeFeat then [("select_index", "edge_feats")] else []) ++
          (if exchange.useMemory then memoryTables.map fun name => ("select_index", name) else [])))

/-- The requests of `refresh_memory`. -/
def refreshCalls : List (String × String) :=
  if exchange.useMemory then memoryTables.map fun name => ("update_index", name) else []

/-- Requests that are each answered before the next one. -/
def roundTrips (calls : List (String × String)) : List MainOp :=
  calls.flatMap fun call => [.call call.1 call.2, .recvConn]

/-- `prefetch_after` of the main process. -/
def prefetchAfterOps (block : Nat) : List MainOp :=
  exchange.readBack.map (.read block) ++
    (if exchange.useMemory then [.mergeMemory block] else [])

/-- The block is loaded. -/
def loadOps (block : Nat) : List MainOp :=
  if block = 0 then roundTrips exchange.firstCalls ++ [.analyze]
  else
    (if exchange.useAsync then [] else [.partEdgeMapCpu, .preFetch block]) ++
      (.recvOnly block :: exchange.prefetchAfterOps block)

/-- With `use_async` the next block is asked for as soon as a block is loaded. -/
def requestOps (block : Nat) : List MainOp :=
  if exchange.useAsync ∧ block + 1 < exchange.blocks then
    (if exchange.transferCpu then [.partEdgeMapCpu] else []) ++ [.preFetch (block + 1)]
  else []

/-- A block of the main process. -/
def blockOps (block : Nat) : List MainOp :=
  exchange.loadOps block ++ exchange.requestOps block ++ [.train block]

/-- An epoch of the main process. -/
def program : List MainOp :=
  (List.range exchange.blocks).flatMap exchange.blockOps ++ roundTrips exchange.refreshCalls

/-! ## The processes -/

/-- The maps of a block fit the shared tensors. -/
def NodeFits (block : Nat) : Prop := exchange.nodeLen block ≤ exchange.nodeRoom

/-- The edge map is compared where there are edge features. -/
def EdgeFits (block : Nat) : Prop :=
  exchange.hasEdgeFeat = true → exchange.edgeLen block ≤ exchange.edgeRoom

instance (block : Nat) : Decidable (exchange.NodeFits block) :=
  inferInstanceAs (Decidable (_ ≤ _))

instance (block : Nat) : Decidable (exchange.EdgeFits block) :=
  inferInstanceAs (Decidable (_ → _))

end Exchange

/-- Where the worker is in `pre_fetch`. -/
inductive Stage where
  | nodeCheck
  | nodeAck
  | edgeCheck
  | edgeAck
  /-- `prefetch_after`, with the tensors that are left. -/
  | write (left : List SharedTensor)
  deriving DecidableEq

/-- What the worker does. -/
inductive Work where
  | poll
  | call
  | preFetch (block mapLen : Nat) (stage : Stage)
  /-- A write has raised. -/
  | stopped
  deriving DecidableEq

/-- The entries of `shared_ret_len` on which `prefetch_after` can fail: the lengths of
`part_node_map`, `pre_same_nodes` and `cur_same_nodes`. -/
structure RetLen where
  node : Nat
  preSame : Nat
  curSame : Nat
  deriving DecidableEq

/-- The pipes in their two directions, and the worker. -/
structure Pipes where
  requests : List Request
  results : Nat
  replies : List Reply
  acks : Nat
  work : Work

/-- The shared tensors. -/
structure Tensors where
  block : SharedTensor → Nat
  retLen : RetLen

/-- Both processes: the rows of `part_node_map` and of `part_memory` in the buffer, and
what the main process took as the reply for a block. -/
structure Processes where
  program : List MainOp
  nodeMap : Nat
  partMemory : Nat
  received : List (Nat × Reply)
  raised : Bool
  pipes : Pipes
  tensors : Tensors

namespace Exchange

variable (exchange : Exchange)

/-- The beginning of an epoch. -/
def initial : Processes where
  program := exchange.program
  nodeMap := 0
  partMemory := 0
  received := []
  raised := false
  pipes := ⟨[], 0, [], 0, .poll⟩
  tensors := ⟨fun _ => 0, ⟨0, 0, 0⟩⟩

/-- An exception ends the main process. -/
def raise (state : Processes) : Processes := { state with program := [], raised := true }

/-- The next step of the main process, which waits at `recv` for a message. -/
def mainStep (state : Processes) : Option Processes :=
  match state.program with
  | [] => none
  | .call function name :: program =>
      some
        { state with
          program := program
          pipes.requests := state.pipes.requests ++ [.call function name] }
  | .recvConn :: program =>
      match state.pipes.results with
      | 0 => none
      | results + 1 => some { state with program := program, pipes.results := results }
  | .analyze :: program =>
      some
        { state with
          program := program, nodeMap := exchange.nodeLen 0, partMemory := exchange.nodeLen 0 }
  | .partEdgeMapCpu :: program =>
      -- Without edge features the map is `None`.
      if exchange.hasEdgeFeat then some { state with program := program } else some (raise state)
  | .preFetch block :: program =>
      some
        { state with
          program := program
          pipes.requests := state.pipes.requests ++ [.preFetch block state.nodeMap] }
  | .recvOnly block :: program =>
      match state.pipes.replies with
      | [] => none
      | reply :: replies =>
          some
            { state with
              program := program
              received := state.received ++ [(block, reply)]
              pipes.replies := replies }
  | .read _ tensor :: program =>
      some
        { state with
          program := program
          nodeMap := if tensor = .partNodeMap then state.tensors.retLen.node else state.nodeMap }
  | .mergeMemory _ :: program =>
      -- A mask has the length of what it is applied to.
      if state.tensors.retLen.preSame = state.partMemory ∧
          state.tensors.retLen.curSame = state.tensors.retLen.node then
        some { state with program := program, partMemory := state.tensors.retLen.node }
      else some (raise state)
  | .train _ :: program =>
      -- The features of the roots are read from the buffer.
      if state.nodeMap = 0 then some (raise state) else some { state with program := program }

/-- The lengths of a block that was asked for with a map of the given length. -/
def lengths (block mapLen : Nat) : RetLen :=
  if exchange.useMemory then ⟨exchange.nodeLen block, mapLen, exchange.nodeLen block⟩
  else ⟨exchange.nodeLen block, 0, 0⟩

/-- The tensor has room for its part of the block. -/
def Writable (block mapLen : Nat) (tensor : SharedTensor) : Prop :=
  exchange.NodeFits block ∧ exchange.EdgeFits block ∧
    (tensor = .preSameNodes → mapLen ≤ exchange.nodeRoom)

instance (block mapLen : Nat) (tensor : SharedTensor) :
    Decidable (exchange.Writable block mapLen tensor) :=
  inferInstanceAs (Decidable (_ ∧ _ ∧ (_ → _)))

/-- A tensor is written. -/
def write (tensors : Tensors) (block mapLen : Nat) (tensor : SharedTensor) : Tensors where
  block := Function.update tensors.block tensor block
  retLen := if tensor = .sharedRetLen then exchange.lengths block mapLen else tensors.retLen

/-- The next step of the worker. -/
def workerStep (state : Processes) : Option Processes :=
  match state.pipes.work with
  | .poll =>
      match state.pipes.requests with
      | [] => none
      | .call _ _ :: requests =>
          some { state with pipes.requests := requests, pipes.work := .call }
      | .preFetch block mapLen :: requests =>
          some
            { state with
              pipes.requests := requests, pipes.work := .preFetch block mapLen .nodeCheck }
  | .call =>
      some { state with pipes.work := .poll, pipes.results := state.pipes.results + 1 }
  | .preFetch block mapLen .nodeCheck =>
      if exchange.NodeFits block then
        some { state with pipes.work := .preFetch block mapLen .edgeCheck }
      else
        some
          { state with
            pipes.work := .preFetch block mapLen .nodeAck
            pipes.replies := state.pipes.replies ++ [.nodeExtension block] }
  | .preFetch block mapLen .nodeAck =>
      match state.pipes.acks with
      | 0 => none
      | acks + 1 =>
          some { state with pipes.work := .preFetch block mapLen .edgeCheck, pipes.acks := acks }
  | .preFetch block mapLen .edgeCheck =>
      if exchange.EdgeFits block then
        some { state with pipes.work := .preFetch block mapLen (.write exchange.written) }
      else
        some
          { state with
            pipes.work := .preFetch block mapLen .edgeAck
            pipes.replies := state.pipes.replies ++ [.edgeExtension block] }
  | .preFetch block mapLen .edgeAck =>
      match state.pipes.acks with
      | 0 => none
      | acks + 1 =>
          some
            { state with
              pipes.work := .preFetch block mapLen (.write exchange.written)
              pipes.acks := acks }
  | .preFetch block mapLen (.write (tensor :: left)) =>
      if exchange.Writable block mapLen tensor then
        some
          { state with
            pipes.work := .preFetch block mapLen (.write left)
            tensors := exchange.write state.tensors block mapLen tensor }
      else some { state with pipes.work := .stopped }
  | .preFetch block _ (.write []) =>
      some
        { state with
          pipes.work := .poll, pipes.replies := state.pipes.replies ++ [.result block] }
  | .stopped => none

/-- The main process and the worker. -/
def parties : Parties Processes := ⟨exchange.mainStep, exchange.workerStep⟩

/-- The handshake in a state: every reply that was taken was the result of its block;
while `prefetch_after` reads a block, all tensors have it; and the main process does not
wait for a worker that waits or has stopped. -/
structure Safe (state : Processes) : Prop where
  received : ∀ block reply, (block, reply) ∈ state.received → reply = .result block
  complete : ∀ block tensor program, state.program = .read block tensor :: program →
    ∀ other ∈ exchange.written, state.tensors.block other = block
  live : exchange.parties.Blocked state → state.program = []

end Exchange

end Dolphin.Buffer.Extensions
