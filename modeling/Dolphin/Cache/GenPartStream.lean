import Mathlib.Logic.Function.Basic
import Dolphin.Graph.FindIndex

/-!
# Planning the bucket cache

`gen_part_stream` walks over the blocks, collects them into cache windows and,
when a window closes, fixes the window's cache list, computes for each of its
blocks which positives come from the cache, from the previous block or from the
block's own file, and names the files the worker will read. The two sides, nodes
and edges, do the same with different tensors and are one definition here.

The ids of a block (`nid_uni`, `eid_uni`) and the ids chosen for a window (the
most frequent ones, in an order `torch.sort` does not fix) are inputs. A feature
file is represented by the id list it is written for. The counters and the
sizes that are only printed or bound memory are left out.
-/

namespace Dolphin.Cache

open Dolphin.Graph Dolphin.Tensor

/-- `threshold`: a window closes each time this many edges have been passed. -/
def threshold : Nat := 80000000

/-- What is saved for one block and one side: `pos_in_cache`, `pos_in_pre` and
`pos_cache_indices`. -/
structure BlockPlan where
  posInCache : List Bool
  posInPre : List Bool
  posCacheIndices : List Nat
  deriving DecidableEq

/-- The files of one side, by window start or by block. -/
structure SideFiles where
  /-- `cache_{n,e}id_incre_mask_{start}`. -/
  increMask : Nat → Option (List Bool)
  /-- `{node,edge}_bucket_cache_idx_{start}`. -/
  bucketCacheIdx : Nat → Option (List Nat)
  /-- The ids whose features are in `cache_{node,edge}_feat_{start}`. -/
  cacheFeat : Nat → Option (List Nat)
  /-- `part{block}_{node,edge}_pos_*`. -/
  plan : Nat → Option BlockPlan
  /-- The ids whose features are in `part{block}_{node,edge}_feat`. -/
  partFeat : Nat → Option (List Nat)
  /-- The cache list with which a block was planned; it is not stored. -/
  plannedWith : Nat → Option (List Nat)

/-- The variables of one side. -/
structure Side where
  /-- `pre_bucket_{n,e}id_idx`. -/
  preBucketIdx : Option (List Nat)
  /-- `pre_{n,e}id`: the positives of the block planned last. -/
  pre : Option (List Nat)
  files : SideFiles

/-- No variable set and no file written. -/
def Side.initial : Side where
  preBucketIdx := none
  pre := none
  files := ⟨fun _ => none, fun _ => none, fun _ => none, fun _ => none, fun _ => none,
    fun _ => none⟩

/-- `pos_in_cache`, `pos_in_pre` and `pos_cache_indices` of a block. -/
def blockPlan (cacheIdx pre cur : List Nat) : BlockPlan :=
  let posInCache := isin cur cacheIdx false
  { posInCache := posInCache
    posInPre := isin cur pre false
    posCacheIndices := findIndices (maskSelect posInCache cur) cacheIdx }

/-- `cur[torch.bitwise_and(~posincache, ~posinpre)]`. -/
def BlockPlan.incremental (plan : BlockPlan) (cur : List Nat) : List Nat :=
  maskSelect (List.zipWith (fun inCache inPre => !inCache && !inPre) plan.posInCache
    plan.posInPre) cur

/-- One block of a closing window. The first block has no predecessor: nothing is
computed for it, and its file holds all its ids. -/
def planBlock (cacheIdx : List Nat) (side : Side) (block : Nat × List Nat) : Side :=
  let plan := side.pre.map fun pre => blockPlan cacheIdx pre block.2
  let incremental := plan.elim block.2 fun plan => plan.incremental block.2
  { side with
    pre := some block.2
    files :=
      { side.files with
        plan := Function.update side.files.plan block.1 plan
        partFeat := Function.update side.files.partFeat block.1 (some incremental)
        plannedWith := Function.update side.files.plannedWith block.1 (some cacheIdx) } }

/-- The cache list of a window: the previous list with the ids that are no longer
chosen overwritten by the newly chosen ones. -/
def switchList (old chosen : List Nat) : List Nat :=
  maskAssign old (isin old chosen true) (maskSelect (isin chosen old true) chosen)

/-- A window closes: the side switches to the ids chosen for it and plans its
blocks. -/
def Side.closeWindow (side : Side) (start : Nat) (chosen : List Nat)
    (bucketHis : List (Nat × List Nat)) : Side :=
  let cacheIdx := (side.preBucketIdx.map (switchList · chosen)).getD chosen
  let increMask := side.preBucketIdx.map fun old => isin old chosen true
  let cacheIncre := (side.preBucketIdx.map fun old =>
    maskSelect (isin chosen old true) chosen).getD chosen
  let planned := bucketHis.foldl (planBlock cacheIdx) side
  { preBucketIdx := some cacheIdx
    pre := planned.pre
    files :=
      { planned.files with
        -- the first window writes no mask file
        increMask := increMask.elim side.files.increMask fun mask =>
          Function.update side.files.increMask start (some mask)
        bucketCacheIdx := Function.update side.files.bucketCacheIdx start (some cacheIdx)
        cacheFeat := Function.update side.files.cacheFeat start (some cacheIncre) } }

/-- What the loop reads. -/
structure PlanInput where
  hasEf : Bool
  batchSize : Nat
  /-- The number of edges. -/
  edgeEnd : Nat
  nidUni : Nat → List Nat
  eidUni : Nat → List Nat
  /-- The node ids chosen for each window. -/
  cacheNid : Nat → List Nat
  /-- The edge ids chosen for each window. -/
  cacheEid : Nat → List Nat

/-- The variables of the loop. -/
structure PlanState where
  preThresholdNum : Nat
  /-- `bucket_cache_start[-1]`. -/
  bucketCacheStart : Nat
  bucketHis : List Nat
  node : Side
  edge : Side

namespace PlanInput

variable (input : PlanInput)

/-- `right` in the turn of a block. -/
def right (block : Nat) : Nat := min input.edgeEnd ((block + 1) * input.batchSize)

/-- The number of turns until `left >= right`. -/
def blockNum : Nat := (input.edgeEnd + input.batchSize - 1) / input.batchSize

/-- The open window closes. -/
def closeWindow (state : PlanState) : PlanState :=
  { state with
    node := state.node.closeWindow state.bucketCacheStart (input.cacheNid state.preThresholdNum)
      (state.bucketHis.map fun block => (block, input.nidUni block))
    edge :=
      if input.hasEf then
        state.edge.closeWindow state.bucketCacheStart (input.cacheEid state.preThresholdNum)
          (state.bucketHis.map fun block => (block, input.eidUni block))
      else state.edge }

/-- One turn of the loop: a threshold passed in this block closes the window of
the blocks before it, and the block opens the next one. -/
def step (state : PlanState) (block : Nat) : PlanState :=
  if state.preThresholdNum < input.right block / threshold then
    { input.closeWindow state with
      preThresholdNum := state.preThresholdNum + 1
      bucketCacheStart := block
      bucketHis := [block] }
  else { state with bucketHis := state.bucketHis ++ [block] }

/-- The variables after some turns. -/
def after : Nat → PlanState
  | 0 => ⟨0, 0, [], .initial, .initial⟩
  | block + 1 => input.step (after block) block

/-- `gen_part_stream`: all turns, and the last window closes. -/
def genPartStream : PlanState := input.closeWindow (input.after input.blockNum)

end PlanInput

end Dolphin.Cache
