import Dolphin.Graph.SortedCsr
import Dolphin.Number.BinaryFloat
import Dolphin.Sampler.SamplerGPU
import Dolphin.Semantics.StaticSchedule
import Dolphin.Tensor.Ragged

/-!
# The CPU sampler

`ParallelSampler` of `sampler_core.cpp` with `recent`, one history, the window duration 0
and without `prop_time`. For each node it keeps a pointer into the node's row, which the
roots of each layer move forward under the node's lock, in any order. The threads then
sample their share of the roots into vectors of their own, and `combine_coo` lays the
vectors one behind the other.

Times are whole numbers: `ts[j] > t - 1e-7f` is `t ≤ ts[j]`. A layer is undefined, `none`,
where one of its `int`s overflows.
-/

namespace Dolphin.Sampler

open Dolphin.Graph Dolphin.Tensor Dolphin.Semantics

/-- A `ParallelSampler`; `num_threads` is `num_thread_per_worker * num_workers`. -/
structure ParallelSampler where
  g : TemporalCsr
  numThreads : Nat
  threaded : 0 < numThreads
  numNeighbors : List Nat

/-- Below this the numbers of an `int` end. -/
def intLimit : Nat := 2 ^ 31

/-- `ts_ptr[0]` and `ts_ptr[1]`. -/
structure TsPtr where
  first : List Nat
  second : List Nat
  deriving DecidableEq

/-- What the constructor and `reset` set. -/
def TsPtr.reset (g : TemporalCsr) : TsPtr := ⟨g.indptr.dropLast, g.indptr.dropLast⟩

/-- A `TemporalGraphBlock`. -/
@[ext]
structure TemporalGraphBlock where
  row : List Nat
  col : List Nat
  eid : List Nat
  ts : List Nat
  dts : List Nat
  nodes : List Nat
  dimIn : Nat
  dimOut : Nat
  deriving DecidableEq

/-- The vectors of one thread and its `_out_node`. -/
@[ext]
structure Worker where
  row : List Nat
  col : List Nat
  eid : List Nat
  ts : List Nat
  dts : List Nat
  nodes : List Nat
  outNode : Nat
  deriving DecidableEq

/-- The vectors before the loop. -/
def Worker.initial : Worker := ⟨[], [], [], [], [], [], 0⟩

namespace ParallelSampler

variable (g : TemporalCsr)

/-! ## The pointers -/

/-- The loop of `update_ts_ptr` at `j`, for a pointer that is still `ptr`. -/
def advance (n ts ptr : Nat) : Nat → Nat → Nat
  | 0, _ => ptr
  | fuel + 1, j =>
      if j < g.rowEnd n then
        if ts ≤ g.tsAt j then if j ≠ ptr then j - 1 else ptr
        else if j = g.rowEnd n - 1 then j
        else advance n ts ptr fuel (j + 1)
      else ptr

/-- What the root at `i` does while it holds the lock of its node. -/
def criticalSection (roots : List Root) (ptr : List Nat) (i : Nat) : List Nat :=
  match roots[i]? with
  | none => ptr
  | some (n, ts) =>
      let j := ptr.getD n 0
      ptr.set n (advance g n ts j (g.rowEnd n - j) j)

/-- `update_ts_ptr(slc, root_nodes, root_ts, 0)` with its critical sections in some order. -/
def updateTsPtr (roots : List Root) (order : List Nat) (ptr : List Nat) : List Nat :=
  order.foldl (criticalSection g roots) ptr

/-! ## A thread -/

/-- `add_neighbor` for the entry `k`. -/
def addNeighbor (k srcTs rowId : Nat) (worker : Worker) : Worker where
  row := worker.row ++ [rowId]
  col := worker.col ++ [worker.nodes.length]
  eid := worker.eid ++ [g.totaleid.getD k 0]
  ts := worker.ts ++ [g.tsAt k]
  dts := worker.dts ++ [srcTs - g.tsAt k]
  nodes := worker.nodes ++ [g.indices.getD k 0]
  outNode := worker.outNode

/-- The loop over the entries `k`, while `cur_nei` is positive. -/
def pickRecent (nts : Nat) : List Nat → Nat → Worker → Worker
  | [], _, worker => worker
  | _ :: _, 0, worker => worker
  | k :: ks, curNei + 1, worker =>
      if g.tsAt k < nts then
        pickRecent nts ks curNei (addNeighbor g k nts worker.outNode worker)
      else pickRecent nts ks (curNei + 1) worker

/-- The body of the sampling loop for one root. -/
def sampleRoot (neighs : Nat) (ptr : TsPtr) (worker : Worker) (root : Root) : Worker :=
  let sSearch := ptr.first.getD root.1 0
  let eSearch := ptr.second.getD root.1 0
  let picked :=
    if ¬(eSearch = sSearch ∧ g.rowEnd root.1 = eSearch) then
      -- `k` goes from `e_search` down to `s_search`.
      pickRecent g root.2 (List.range' sSearch (eSearch + 1 - sSearch)).reverse neighs worker
    else worker
  { picked with outNode := picked.outNode + 1 }

/-! ## The merge -/

/-- `resize(n)`. -/
def resize (xs : List Nat) (n : Nat) : List Nat :=
  xs.take n ++ List.replicate (n - xs.length) 0

/-- `combine_coo` with the vectors of all threads. -/
def combineCoo (ret : TemporalGraphBlock) (workers : List Worker) : TemporalGraphBlock :=
  let cumRow := cumsum 0 (0 :: workers.map Worker.outNode)
  let cumCol := cumsum 0 (0 :: workers.map fun worker => worker.col.length)
  let numRootNodes := ret.nodes.length
  let total := cumCol.getLastD 0
  let rows := (workers.zip cumRow).map fun part => part.1.row.map (· + part.2)
  let cols := (workers.zip cumCol).map fun part =>
    part.1.col.map (· + part.2 + numRootNodes)
  let nodes := copyAll numRootNodes (resize ret.nodes (total + numRootNodes))
    (workers.map Worker.nodes) cumCol
  { row := copyAll 0 (resize ret.row total) rows cumCol
    col := copyAll 0 (resize ret.col total) cols cumCol
    eid := copyAll 0 (resize ret.eid total) (workers.map Worker.eid) cumCol
    ts := copyAll numRootNodes (resize ret.ts (total + numRootNodes))
      (workers.map Worker.ts) cumCol
    dts := copyAll numRootNodes (resize ret.dts (total + numRootNodes))
      (workers.map Worker.dts) cumCol
    nodes := nodes
    dimIn := nodes.length
    dimOut := cumRow.getLastD 0 }

/-- The block before `combine_coo`. -/
def rootBlock (roots : List Root) : TemporalGraphBlock :=
  ⟨[], [], [], roots.map Prod.snd, List.replicate roots.length 0, roots.map Prod.fst, 0, 0⟩

/-! ## Layers and calls -/

variable (sampler : ParallelSampler)

/-- `int(ceil(static_cast<float>(root_nodes.size()) / num_threads))`. -/
def chunk (count : Nat) : Nat :=
  BinaryFloat.ceilDiv 23 (BinaryFloat.ofNat 23 count) (BinaryFloat.ofNat 23 sampler.numThreads)

/-- The vectors of a thread after the sampling loop. -/
def runThread (neighs : Nat) (ptr : TsPtr) (roots : List Root) (tid : Nat) : Worker :=
  (StaticSchedule.iterations (sampler.chunk roots.length) sampler.numThreads roots.length
    tid).foldl (fun worker j => sampleRoot sampler.g neighs ptr worker (roots.getD j (0, 0)))
    Worker.initial

/-- `sample_layer` with the critical sections of `update_ts_ptr` in some order. -/
def sampleLayer (neighs : Nat) (order : List Nat) (ptr : TsPtr) (roots : List Root) :
    Option (TsPtr × TemporalGraphBlock) :=
  if sampler.chunk roots.length < intLimit ∧
      roots.length / sampler.numThreads * neighs < intLimit then
    let ptr := { ptr with second := updateTsPtr sampler.g roots order ptr.second }
    let workers := (List.range sampler.numThreads).map (sampler.runThread neighs ptr roots)
    let ret := combineCoo (rootBlock roots) workers
    if ret.nodes.length < intLimit then some (ptr, ret) else none
  else none

/-- For each layer and each number of roots, the order in which the threads run the
critical sections. -/
structure Schedule where
  order : Nat → Nat → List Nat
  perm : ∀ layer count, (order layer count).Perm (List.range count)

/-- The layers from `layer` on. -/
def sampleLayers (schedule : Schedule) :
    List Nat → Nat → TsPtr → List Root → Option (TsPtr × List TemporalGraphBlock)
  | [], _, ptr, _ => some (ptr, [])
  | neighs :: fanouts, layer, ptr, roots => do
      let (ptr, ret) ←
        sampler.sampleLayer neighs (schedule.order layer roots.length) ptr roots
      let (ptr, rets) ← sampleLayers schedule fanouts (layer + 1) ptr (ret.nodes.zip ret.ts)
      some (ptr, ret :: rets)

/-- `sample(root_nodes, root_ts)`; `ret` has the blocks. -/
def sample (schedule : Schedule) (ptr : TsPtr) (roots : List Root) :
    Option (TsPtr × List TemporalGraphBlock) :=
  sampler.sampleLayers schedule sampler.numNeighbors 0 ptr roots

/-- The pointers after some calls of `sample`. -/
def history (calls : List (Schedule × List Root)) : Option TsPtr :=
  calls.foldlM (fun ptr call => (sampler.sample call.1 ptr call.2).map Prod.fst)
    (TsPtr.reset sampler.g)

end ParallelSampler

end Dolphin.Sampler
