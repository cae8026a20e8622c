import Dolphin.Alloc.SlotPool
import Dolphin.Memory.DiskRows
import Dolphin.Memory.SimplePlan
import Dolphin.Semantics.Table

/-!
# The node memory on disk refines a table

Whatever the planner selects, a run of `mem_update` over its blocks with
`mem_select` in between behaves as a table from nodes to rows that starts with
zeros. The cache slots are a pool whose first slot nobody uses: a node's flag is
its slot, and the flag of a node that is not cached is that first slot.
-/

namespace Dolphin.Memory

open Dolphin.Alloc Dolphin.Semantics Dolphin.Tensor

/-! ## Runs -/

/-- A plan of `node_memory.py` and the row of each node in the memory file. -/
structure MemorySetup where
  info : BlockInfo
  limit : Nat
  weightOrder : List Nat
  order : weightOrder.Perm (List.range (genIntervals info.blocks (info.numNodes + 1)).length)
  nodeReorderMap : List Nat
  fileRows : Nat
  inFile : ∀ v < info.numNodes, nodeReorderMap.getD v 0 < fileRows
  injective : ∀ v < info.numNodes, ∀ w < info.numNodes,
    nodeReorderMap.getD v 0 = nodeReorderMap.getD w 0 → v = w

namespace MemorySetup

variable (setup : MemorySetup)

def intervals : List Interval :=
  dataPlacementSingle setup.info.blocks (setup.info.numNodes + 1) setup.limit setup.weightOrder

def plan : SimplePlan := genSimple setup.info.blocks setup.intervals

theorem gaps : ∀ interval ∈ setup.intervals, Gap setup.info.blocks interval :=
  (dataPlacementSingle_gaps setup.info setup.limit setup.order).1

end MemorySetup

variable {α : Type} [Inhabited α] {param : MemoryParam}

/-- A call of the worker: the update of the next block, with the order in which
its writes reach the file, or a selection. -/
inductive Call (α : Type) [Inhabited α] (param : MemoryParam) where
  | update (mems : List (NodeRow α param)) (schedule : Schedule α)
  | select (nodes : List Nat)

/-- The calls a run may make from some block on: each update has a row for every
node of its block. -/
def Allowed (blocks : List (List Nat)) : Nat → List (Call α param) → Prop
  | _, [] => True
  | b, .update mems _ :: calls =>
      b < blocks.length ∧ mems.length = (blocks.getD b []).length ∧ Allowed blocks (b + 1) calls
  | b, .select _ :: calls => Allowed blocks b calls

/-- The worker between two calls, and what its selections returned. -/
structure Session (α : Type) where
  store : DiskMemory α
  curBlock : Nat
  results : List (List (NodeMem α))

/-- One call. -/
def Session.call (setup : MemorySetup) (session : Session α) :
    Call α param → Session α
  | .update mems schedule =>
      { session with
        store := memUpdate setup.plan setup.nodeReorderMap schedule session.store session.curBlock
          (setup.info.blocks.getD session.curBlock []) (mems.map Subtype.val)
        curBlock := session.curBlock + 1 }
  | .select nodes =>
      { session with
        results := session.results ++
          [memSelect param setup.nodeReorderMap session.store nodes] }

/-- A run from `reset_memory` on. -/
def session (setup : MemorySetup) (disk : List (List α)) (calls : List (Call α param)) :
    Session α :=
  calls.foldl (Session.call setup) ⟨resetMemory param setup.plan setup.info.numNodes disk, 0, []⟩

/-! ## The table -/

/-- The run of a table: its rows, the block, and what it returned. -/
structure TableRun (α : Type) [Inhabited α] (param : MemoryParam) where
  table : Nat → NodeRow α param
  curBlock : Nat
  results : List (List (NodeMem α))

/-- One call. -/
def TableRun.call (blocks : List (List Nat)) (run : TableRun α param) :
    Call α param → TableRun α param
  | .update mems _ =>
      { run with
        table := writeAll run.table (blocks.getD run.curBlock []) mems
        curBlock := run.curBlock + 1 }
  | .select nodes =>
      { run with results := run.results ++ [nodes.map fun v => (run.table v).1] }

/-- A run from zeros on. -/
def tableRun (blocks : List (List Nat)) (calls : List (Call α param)) : TableRun α param :=
  calls.foldl (TableRun.call blocks) ⟨fun _ => NodeRow.zeros α param, 0, []⟩

/-! ## The invariant -/

/-- A node's slot is its flag; the unused first slot has no node. -/
def slotOf (nodeCacheFlag : List Nat) : Option Nat → Nat
  | none => 0
  | some v => nodeCacheFlag.getD v 0

/-- What a slot's row holds: zeros in the first slot, else its node's row. -/
def valueOf (table : Nat → NodeRow α param) : Option Nat → List α
  | none => List.replicate param.memTotalShape default
  | some v => (table v).1.pack

/-- The worker's memory before block `b`, the table it stands for, and its slots. -/
structure Refines (setup : MemorySetup) (b : Nat) (store : DiskMemory α)
    (table : Nat → NodeRow α param) (pool : SlotPool (Option Nat)) : Prop where
  flagLength : store.memFlag.length = setup.info.numNodes
  slotsLength : store.nodeCacheFlag.length = setup.info.numNodes + 1
  usedLength : store.nodeCacheUsed.length = setup.plan.simpleMaxNum + 2
  cacheLength : store.cacheMemory.length = setup.plan.simpleMaxNum + 1
  diskLength : store.disk.length = setup.fileRows
  written : ∀ v, store.memFlag.getD v false = true ↔ ∃ k < b, HasNode setup.info.blocks k v
  slot : pool.slot = slotOf store.nodeCacheFlag
  size : pool.size = setup.plan.simpleMaxNum + 2
  free : pool.free.Perm (nonzero (store.nodeCacheUsed.map (!·)))
  reserved : none ∈ pool.live
  live : ∀ v, some v ∈ pool.live ↔ Cached setup.intervals b v
  idle : ∀ v, ¬Cached setup.intervals b v → store.nodeCacheFlag.getD v 0 = 0
  bounded : ∀ v, store.nodeCacheFlag.getD v 0 ≤ setup.plan.simpleMaxNum
  rows : pool.Holds store.cacheMemory (valueOf table)
  stored : ∀ k < b, ∀ v, HasNode setup.info.blocks k v → ¬Cached setup.intervals b v →
    store.disk[setup.nodeReorderMap.getD v 0]? = some (table v).1.pack
  fresh : ∀ v, (∀ k < b, ¬HasNode setup.info.blocks k v) → table v = NodeRow.zeros α param

variable {setup : MemorySetup} {b : Nat} {store : DiskMemory α} {table : Nat → NodeRow α param}
  {pool : SlotPool (Option Nat)}

/-- A cached node has a slot of its own, which is not the first one. -/
theorem Refines.slot_ne_zero (refines : Refines setup b store table pool) {v : Nat}
    (cached : Cached setup.intervals b v) : store.nodeCacheFlag.getD v 0 ≠ 0 := by
  intro zero
  have same : pool.slot (some v) = pool.slot none := by
    rw [refines.slot]
    exact zero
  cases pool.slot_injective ((refines.live v).mpr cached) refines.reserved same

/-- The row that `mem_select` reads for a node is the table's. -/
theorem Refines.rowOf (refines : Refines setup b store table pool) (v : Nat) :
    rowOf param setup.nodeReorderMap store v = (table v).1.pack := by
  unfold Memory.rowOf
  split
  case isTrue written =>
      obtain ⟨k, before, node⟩ := (refines.written v).mp written
      by_cases cached : Cached setup.intervals b v
      · rw [if_pos (refines.slot_ne_zero cached)]
        have row := refines.rows (some v) ((refines.live v).mpr cached)
        rw [refines.slot] at row
        change store.cacheMemory[store.nodeCacheFlag.getD v 0]? = _ at row
        rw [List.getD_eq_getElem?_getD, row]
        rfl
      · rw [if_neg (not_not_intro (refines.idle v cached)), List.getD_eq_getElem?_getD,
          refines.stored k before v node cached]
        rfl
  case isFalse unwritten =>
      have never : ∀ k < b, ¬HasNode setup.info.blocks k v := fun k before node =>
        unwritten ((refines.written v).mpr ⟨k, before, node⟩)
      rw [refines.fresh v never, pack_zeros]

/-- `mem_select` returns the table's rows. -/
theorem Refines.memSelect (refines : Refines setup b store table pool) (nodes : List Nat) :
    memSelect param setup.nodeReorderMap store nodes = nodes.map fun v => (table v).1 := by
  rw [memSelect_eq]
  apply List.map_congr_left
  intro v _
  rw [refines.rowOf, unpack_pack (table v).2]

/-- The memory after `reset_memory`. -/
theorem Refines.reset {disk : List (List α)} (rows : disk.length = setup.fileRows) :
    ∃ pool, Refines setup 0 (resetMemory param setup.plan setup.info.numNodes disk)
      (fun _ => NodeRow.zeros α param) pool := by
  have flags : ∀ v, (List.replicate (setup.info.numNodes + 1) 0).getD v 0 = 0 := by
    intro v
    rw [List.getD_eq_getElem?_getD, List.getElem?_replicate]
    split <;> rfl
  have all : ([none].map (slotOf (List.replicate (setup.info.numNodes + 1) 0)) ++
      List.range' 1 (setup.plan.simpleMaxNum + 1)).Perm
        (List.range (setup.plan.simpleMaxNum + 2)) := by
    rw [List.range_eq_range', List.range'_succ]
    exact List.Perm.refl _
  have free : (List.range' 1 (setup.plan.simpleMaxNum + 1)).Perm (nonzero
      ((true :: List.replicate (setup.plan.simpleMaxNum + 1) false).map (!·))) := by
    refine (List.perm_ext_iff_of_nodup List.nodup_range'
      ((nonzero_pairwise _).imp Nat.ne_of_lt)).mpr fun s => ?_
    rw [List.mem_range'_1, mem_nonzero]
    cases s with
    | zero => simp
    | succ s => simp [List.getElem?_replicate]; omega
  refine ⟨⟨slotOf (List.replicate (setup.info.numNodes + 1) 0), [none],
    List.range' 1 (setup.plan.simpleMaxNum + 1), setup.plan.simpleMaxNum + 2, all⟩, ?_⟩
  constructor
  case written =>
      intro v
      simp [resetMemory, List.getElem?_replicate]
      split <;> simp
  case free => exact free
  case live =>
      intro v
      simp [not_cached_zero]
  case idle => exact fun v _ => flags v
  case bounded =>
      intro v
      change (List.replicate (setup.info.numNodes + 1) 0).getD v 0 ≤ _
      rw [flags]
      exact Nat.zero_le _
  case rows =>
      intro x live
      obtain rfl := List.mem_singleton.mp live
      simp [resetMemory, slotOf, valueOf]
  case stored => exact fun k before => absurd before (Nat.not_lt_zero k)
  all_goals simp [resetMemory, rows]

/-! ## One update -/

section Update

variable (setup) in
/-- The nodes of a list at which an interval starts in the block. -/
def starting (b : Nat) (uni : List Nat) : List Nat :=
  uni.filter fun v => decide (Starts setup.intervals b v)

variable (setup) in
/-- The nodes whose slots are given up in the block. -/
def leaving (b : Nat) : Option Nat → Bool
  | none => false
  | some v => decide (v ∈ curEndFlushIdx setup.intervals b)

variable {uni : List Nat}

theorem mem_nonzero_not {mask : List Bool} {s : Nat} :
    s ∈ nonzero (mask.map (!·)) ↔ mask.getD s true = false := by
  rw [mem_nonzero, List.getElem?_map, List.getD_eq_getElem?_getD]
  cases mask[s]? <;> simp

theorem starting_length (own : setup.info.blocks[b]? = some uni) :
    (raggedRow setup.plan.startCacheInd setup.plan.startCachePtr b).length =
      (starting setup b uni).length := by
  have rows := congrArg List.length (@gather_startCache setup.intervals b uni Nat _ id)
  rw [gather_length, List.map_id] at rows
  rw [MemorySetup.plan, genSimple_startCache own]
  exact rows

/-- Who keeps a slot when the leaving nodes have given up theirs. -/
theorem Refines.kept (refines : Refines setup b store table pool)
    (own : setup.info.blocks[b]? = some uni) (x : Option Nat) :
    x ∈ (pool.release (leaving setup b)).live ↔
      x = none ∨ ∃ v, x = some v ∧ v ∉ uni ∧ Cached setup.intervals b v := by
  rw [SlotPool.release, List.mem_filter]
  cases x with
  | none => simp [leaving, refines.reserved]
  | some v =>
      simp only [refines.live, leaving, mem_curEndFlushIdx setup.gaps own, Bool.not_eq_true',
        decide_eq_false_iff_not, reduceCtorEq, false_or, Option.some.injEq, exists_eq_left']
      tauto

/-- Those who keep a slot and the nodes that get one fit into the cache. -/
theorem Refines.fits (refines : Refines setup b store table pool)
    (own : setup.info.blocks[b]? = some uni) :
    (pool.release (leaving setup b)).live.length + (starting setup b uni).length ≤
      setup.plan.simpleMaxNum + 1 := by
  have bound : b < setup.info.blocks.length := (List.getElem?_eq_some_iff.mp own).1
  have distinct : uni.Nodup := setup.info.distinct uni (List.mem_of_getElem? own)
  have all : ((pool.release (leaving setup b)).live ++
      (starting setup b uni).map some).Nodup := by
    refine List.nodup_append.mpr ⟨SlotPool.live_nodup _, ?_, ?_⟩
    · exact (distinct.filter _).map fun _ _ => Option.some.inj
    · rintro x kept y new rfl
      obtain ⟨v, member, rfl⟩ := List.mem_map.mp new
      rcases (refines.kept own (some v)).mp kept with absurd_ | ⟨w, same, other, -⟩
      · cases absurd_
      · cases same
        exact other (List.mem_filter.mp member).1
  have inPlan : ∀ x ∈ (pool.release (leaving setup b)).live ++ (starting setup b uni).map some,
      x ∈ none :: (genBatchPlan setup.intervals b).map some := by
    intro x member
    rcases List.mem_append.mp member with kept | new
    · rcases (refines.kept own x).mp kept with rfl | ⟨v, rfl, other, cached⟩
      · exact List.mem_cons_self
      · refine List.mem_cons_of_mem _ (List.mem_map_of_mem (mem_genBatchPlan.mpr ?_))
        exact (cached_succ_of_notMem setup.gaps own other).mpr cached
    · obtain ⟨v, inside, rfl⟩ := List.mem_map.mp new
      obtain ⟨member, starts⟩ := List.mem_filter.mp inside
      refine List.mem_cons_of_mem _ (List.mem_map_of_mem (mem_genBatchPlan.mpr ?_))
      exact (cached_succ_of_mem setup.gaps own member).mpr (of_decide_eq_true starts)
  have count := all.length_le_of_subset inPlan
  have largest : (genBatchPlan setup.intervals b).length ≤ setup.plan.simpleMaxNum :=
    genBatchPlan_length_le bound
  simp only [List.length_append, List.length_map, List.length_cons] at count
  omega

/-- The search for unused slots finds enough, and only small ones. -/
theorem Refines.supplied (refines : Refines setup b store table pool)
    (own : setup.info.blocks[b]? = some uni) :
    (pool.release (leaving setup b)).free.Perm
        (nonzero ((cacheUnusedIdx setup.plan store b).1.map (!·))) ∧
      (cacheUnusedIdx setup.plan store b).2 =
        (nonzero ((cacheUnusedIdx setup.plan store b).1.map (!·))).take
          (starting setup b uni).length ∧
      (cacheUnusedIdx setup.plan store b).2.length = (starting setup b uni).length ∧
      ∀ s ∈ (cacheUnusedIdx setup.plan store b).2, s ≤ setup.plan.simpleMaxNum := by
  have ends : raggedRow setup.plan.endFlushIdx setup.plan.endFlushPtr b =
      curEndFlushIdx setup.intervals b := genSimple_endFlush own
  have found : (cacheUnusedIdx setup.plan store b).2 =
      (nonzero ((cacheUnusedIdx setup.plan store b).1.map (!·))).take
        (starting setup b uni).length := by
    rw [← starting_length own]
    rfl
  have free : (pool.release (leaving setup b)).free.Perm
      (nonzero ((cacheUnusedIdx setup.plan store b).1.map (!·))) := by
    refine (List.perm_ext_iff_of_nodup (SlotPool.free_nodup _)
      ((nonzero_pairwise _).imp Nat.ne_of_lt)).mpr fun s => ?_
    have bound : ∀ s ∈ gather store.nodeCacheFlag (curEndFlushIdx setup.intervals b),
        s < store.nodeCacheUsed.length := by
      intro s member
      obtain ⟨v, -, rfl⟩ := List.mem_map.mp member
      have small := refines.bounded v
      rw [refines.usedLength]
      exact Nat.lt_of_le_of_lt small (by omega)
    rw [mem_nonzero_not, cacheUnusedIdx]
    simp only [ends]
    rw [getD_indexFill bound, SlotPool.release, List.mem_append, List.mem_map,
      refines.free.mem_iff, mem_nonzero_not]
    have given : (∃ x, x ∈ pool.live.filter (leaving setup b) ∧ pool.slot x = s) ↔
        s ∈ gather store.nodeCacheFlag (curEndFlushIdx setup.intervals b) := by
      rw [refines.slot, gather, List.mem_map]
      constructor
      · rintro ⟨x, member, rfl⟩
        obtain ⟨live, leaves⟩ := List.mem_filter.mp member
        cases x with
        | none => cases leaves
        | some v => exact ⟨v, of_decide_eq_true leaves, rfl⟩
      · rintro ⟨v, ends, rfl⟩
        have cached := ((mem_curEndFlushIdx setup.gaps own).mp ends).2
        exact ⟨some v, List.mem_filter.mpr ⟨(refines.live v).mpr cached, decide_eq_true ends⟩, rfl⟩
    rw [given]
    by_cases freed : s ∈ gather store.nodeCacheFlag (curEndFlushIdx setup.intervals b)
    · simp [freed]
    · simp [freed]
  have room := refines.fits own
  have total := (pool.release (leaving setup b)).length_add
  have size : (pool.release (leaving setup b)).size = setup.plan.simpleMaxNum + 2 := refines.size
  refine ⟨free, found, ?_, fun s member => ?_⟩
  · have same := free.length_eq
    rw [found, List.length_take]
    omega
  · rw [found] at member
    have small := (pool.release (leaving setup b)).lowest_lt (nonzero_pairwise _) free member
    omega

variable (setup) in
/-- The nodes of a list whose rows go to the file in the block. -/
def flushing (b : Nat) (uni : List Nat) : List Nat :=
  uni.filter fun v => !decide (Starts setup.intervals b v)

/-- The rows of the file that the block writes are distinct. -/
theorem flushing_nodup (own : setup.info.blocks[b]? = some uni) :
    ((flushing setup b uni).map fun v => setup.nodeReorderMap.getD v 0).Nodup := by
  have member := List.mem_of_getElem? own
  have known : ∀ v ∈ flushing setup b uni, v < setup.info.numNodes := fun v inside =>
    setup.info.known uni member v (List.mem_filter.mp inside).1
  refine List.Nodup.map_on (fun v vIn w wIn same => ?_)
    ((setup.info.distinct uni member).filter _)
  exact setup.injective v (known v vIn) w (known w wIn) same

/-- The memory after an update, with the nodes of the block in the place of
positions: an empty block, for which `mem_update` returns at once, is no exception. -/
theorem memUpdate_eq (own : setup.info.blocks[b]? = some uni) (schedule : Schedule α)
    (store : DiskMemory α) (table : Nat → NodeRow α param) {mems : List (NodeRow α param)}
    (aligned : mems.length = uni.length) :
    let row := fun v => (writeAll table uni mems v).1.pack
    let found := cacheUnusedIdx setup.plan store b
    memUpdate setup.plan setup.nodeReorderMap schedule store b uni (mems.map Subtype.val) =
      { memFlag := indexFill store.memFlag uni true
        nodeCacheFlag := indexAssign
          (indexFill store.nodeCacheFlag (curEndFlushIdx setup.intervals b) 0)
          (starting setup b uni) found.2
        nodeCacheUsed := indexFill found.1 found.2 true
        cacheMemory := indexAssign store.cacheMemory found.2 ((starting setup b uni).map row)
        disk := indexAssign store.disk
          ((flushing setup b uni).map fun v => setup.nodeReorderMap.getD v 0)
          ((flushing setup b uni).map row) } := by
  intro row found
  have ends : raggedRow setup.plan.endFlushIdx setup.plan.endFlushPtr b =
      curEndFlushIdx setup.intervals b := genSimple_endFlush own
  have startCache : raggedRow setup.plan.startCacheInd setup.plan.startCachePtr b =
      nonzero (curStartMask setup.intervals uni b) := genSimple_startCache own
  have startFlush : raggedRow setup.plan.startFlushInd setup.plan.startFlushPtr b =
      nonzero ((curStartMask setup.intervals uni b).map (!·)) := genSimple_startFlush own
  have distinct := setup.info.distinct uni (List.mem_of_getElem? own)
  have totalMem : (mems.map Subtype.val).map NodeMem.pack = uni.map row := by
    rw [List.map_map]
    conv_lhs => rw [← map_writeAll distinct table aligned, List.map_map]
    rfl
  unfold memUpdate
  split
  case isTrue empty =>
      obtain rfl : uni = [] := by
        apply List.eq_nil_of_length_eq_zero
        rw [← aligned]
        simpa using empty
      have noEnds : curEndFlushIdx setup.intervals b = [] := by
        refine List.eq_nil_iff_forall_not_mem.mpr fun v member => ?_
        exact List.not_mem_nil ((mem_curEndFlushIdx setup.gaps own).mp member).1
      have noStarts : raggedRow setup.plan.startCacheInd setup.plan.startCachePtr b = [] := startCache
      simp only [found, cacheUnusedIdx, ends, noEnds, noStarts]
      rfl
  case isFalse =>
      have entering := @gather_startCache setup.intervals b uni Nat _ id
      have written := @gather_startFlush setup.intervals b uni Nat _ id
      rw [List.map_id, List.map_id] at entering written
      simp only [ends, startCache, startFlush, totalMem, entering, written, gather_startCache,
        gather_startFlush]
      rw [updateBinDisk_eq]
      · rfl
      · exact flushing_nodup own
      · rw [List.length_map, gather_length]

variable (setup) in
/-- `node_cache_flag` after a block. -/
def nextFlag (store : DiskMemory α) (b : Nat) (uni : List Nat) : List Nat :=
  indexAssign (indexFill store.nodeCacheFlag (curEndFlushIdx setup.intervals b) 0)
    (starting setup b uni) (cacheUnusedIdx setup.plan store b).2

/-- The flags of the nodes that do not enter the cache. -/
theorem Refines.nextFlag_other (refines : Refines setup b store table pool)
    (own : setup.info.blocks[b]? = some uni) {v : Nat} (other : v ∉ starting setup b uni) :
    (nextFlag setup store b uni).getD v 0 =
      if v ∈ curEndFlushIdx setup.intervals b then 0 else store.nodeCacheFlag.getD v 0 := by
  have bound : ∀ w ∈ curEndFlushIdx setup.intervals b, w < store.nodeCacheFlag.length := by
    intro w ends
    have known := setup.info.known uni (List.mem_of_getElem? own) w
      ((mem_curEndFlushIdx setup.gaps own).mp ends).1
    rw [refines.slotsLength]
    omega
  rw [← getD_indexFill bound, nextFlag, List.getD_eq_getElem?_getD, List.getD_eq_getElem?_getD,
    indexAssign_other other]

/-- The flags of the nodes that enter the cache are the slots found, in order. -/
theorem Refines.nextFlag_starting (refines : Refines setup b store table pool)
    (own : setup.info.blocks[b]? = some uni) :
    ((starting setup b uni).map some).map (slotOf (nextFlag setup store b uni)) =
      (cacheUnusedIdx setup.plan store b).2 := by
  have member := List.mem_of_getElem? own
  obtain ⟨-, -, enough, -⟩ := refines.supplied own
  have read := @gather_indexAssign Nat _
    (indexFill store.nodeCacheFlag (curEndFlushIdx setup.intervals b) 0)
    (cacheUnusedIdx setup.plan store b).2 (starting setup b uni)
    ((setup.info.distinct uni member).filter _) enough (fun v inside => by
      have known := setup.info.known uni member v (List.mem_filter.mp inside).1
      rw [indexFill_length, refines.slotsLength]
      omega)
  rw [List.map_map]
  exact read

/-- The flags of the nodes outside the list stay. -/
theorem Refines.nextFlag_outside (refines : Refines setup b store table pool)
    (own : setup.info.blocks[b]? = some uni) {v : Nat} (outside : v ∉ uni) :
    (nextFlag setup store b uni).getD v 0 = store.nodeCacheFlag.getD v 0 := by
  rw [refines.nextFlag_other own fun starts => outside (List.mem_filter.mp starts).1,
    if_neg fun ends => outside ((mem_curEndFlushIdx setup.gaps own).mp ends).1]

/-- The slots after a block: the leaving nodes give theirs up, and the entering
ones take the lowest free ones. -/
theorem Refines.assigns (refines : Refines setup b store table pool)
    (own : setup.info.blocks[b]? = some uni) :
    ∃ after, (pool.release (leaving setup b)).Assigns ((starting setup b uni).map some) after ∧
      after.slot = slotOf (nextFlag setup store b uni) ∧
      after.size = setup.plan.simpleMaxNum + 2 ∧
      after.free = (nonzero ((cacheUnusedIdx setup.plan store b).1.map (!·))).drop
        (starting setup b uni).length := by
  obtain ⟨free, found, -, -⟩ := refines.supplied own
  have kept : ∀ x ∈ (pool.release (leaving setup b)).live,
      slotOf (nextFlag setup store b uni) x = (pool.release (leaving setup b)).slot x := by
    intro x live
    change _ = pool.slot x
    rw [refines.slot]
    rcases (refines.kept own x).mp live with rfl | ⟨v, rfl, outside, -⟩
    · rfl
    · exact refines.nextFlag_outside own outside
  have supply : (((starting setup b uni).map some).map (slotOf (nextFlag setup store b uni)) ++
      (nonzero ((cacheUnusedIdx setup.plan store b).1.map (!·))).drop
        (starting setup b uni).length).Perm
      ((pool.release (leaving setup b)).free ++
        List.range' (pool.release (leaving setup b)).size 0) := by
    rw [refines.nextFlag_starting own, found, List.take_append_drop, List.range'_zero,
      List.append_nil]
    exact free.symm
  exact ⟨_, ⟨_, _, 0, kept, supply, rfl⟩, rfl, refines.size, rfl⟩

/-- In a list without duplicates the later elements are those not taken before. -/
theorem mem_drop_iff {xs : List Nat} (distinct : xs.Nodup) {count s : Nat} :
    s ∈ xs.drop count ↔ s ∈ xs ∧ s ∉ xs.take count := by
  have parts := distinct
  rw [← List.take_append_drop count xs] at parts
  constructor
  · intro later
    exact ⟨List.mem_of_mem_drop later, fun first =>
      (List.nodup_append.mp parts).2.2 s first s later rfl⟩
  · rintro ⟨member, notFirst⟩
    rw [← List.take_append_drop count xs] at member
    exact (List.mem_append.mp member).resolve_left notFirst

/-- An update keeps the memory and the table together. -/
theorem Refines.update (refines : Refines setup b store table pool)
    (own : setup.info.blocks[b]? = some uni) (schedule : Schedule α)
    {mems : List (NodeRow α param)} (aligned : mems.length = uni.length) :
    ∃ after, Refines setup (b + 1)
      (memUpdate setup.plan setup.nodeReorderMap schedule store b uni (mems.map Subtype.val))
      (writeAll table uni mems) after := by
  have member := List.mem_of_getElem? own
  have known := setup.info.known uni member
  have has : ∀ v, HasNode setup.info.blocks b v ↔ v ∈ uni := by
    intro v
    simp [HasNode, own]
  obtain ⟨free, found, enough, small⟩ := refines.supplied own
  obtain ⟨after, assigns, slot, size, rest⟩ := refines.assigns own
  have slots := refines.nextFlag_starting own
  have live : ∀ x, x ∈ after.live ↔ x ∈ (pool.release (leaving setup b)).live ∨
      x ∈ (starting setup b uni).map some := by
    intro x
    rw [assigns.live, List.mem_append]
  have foundMem : ∀ v ∈ starting setup b uni, (nextFlag setup store b uni).getD v 0 ∈
      (cacheUnusedIdx setup.plan store b).2 := by
    intro v starts
    rw [← slots, List.map_map]
    exact List.mem_map_of_mem starts
  refine ⟨after, ?_⟩
  rw [memUpdate_eq own schedule store table aligned]
  constructor
  case flagLength => rw [indexFill_length, refines.flagLength]
  case slotsLength => rw [indexAssign_length, indexFill_length, refines.slotsLength]
  case usedLength =>
      rw [indexFill_length]
      change (indexFill store.nodeCacheUsed _ false).length = _
      rw [indexFill_length, refines.usedLength]
  case cacheLength => rw [indexAssign_length, refines.cacheLength]
  case diskLength => rw [indexAssign_length, refines.diskLength]
  case slot => exact slot
  case size => exact size
  case written =>
      intro v
      have bound : ∀ w ∈ uni, w < store.memFlag.length := by
        rw [refines.flagLength]
        exact known
      rw [getD_indexFill bound]
      by_cases inBlock : v ∈ uni
      · rw [if_pos inBlock]
        simp only [true_iff]
        exact ⟨b, Nat.lt_succ_self b, (has v).mpr inBlock⟩
      · rw [if_neg inBlock, refines.written]
        constructor
        · rintro ⟨k, before, node⟩
          exact ⟨k, Nat.lt_succ_of_lt before, node⟩
        · rintro ⟨k, before, node⟩
          rcases Nat.lt_succ_iff_lt_or_eq.mp before with earlier | rfl
          · exact ⟨k, earlier, node⟩
          · exact absurd ((has v).mp node) inBlock
  case free =>
      rw [rest]
      refine (List.perm_ext_iff_of_nodup ?_
        ((nonzero_pairwise _).imp Nat.ne_of_lt)).mpr fun s => ?_
      · exact ((nonzero_pairwise _).imp Nat.ne_of_lt).sublist (List.drop_sublist _ _)
      · have bound : ∀ s ∈ (cacheUnusedIdx setup.plan store b).2,
            s < (cacheUnusedIdx setup.plan store b).1.length := by
          intro s inside
          rw [found] at inside
          have position := nonzero_lt (List.mem_of_mem_take inside)
          rwa [List.length_map] at position
        rw [mem_nonzero_not, getD_indexFill bound, mem_drop_iff
          ((nonzero_pairwise _).imp Nat.ne_of_lt), ← found, mem_nonzero_not]
        by_cases taken : s ∈ (cacheUnusedIdx setup.plan store b).2
        · simp [taken]
        · simp [taken]
  case reserved => exact (live none).mpr (Or.inl ((refines.kept own none).mpr (Or.inl rfl)))
  case live =>
      intro v
      rw [live, refines.kept own, List.mem_map]
      simp only [reduceCtorEq, Option.some.injEq, exists_eq_left', exists_eq_right, false_or]
      by_cases inBlock : v ∈ uni
      · rw [cached_succ_of_mem setup.gaps own inBlock]
        simp [starting, inBlock]
      · rw [cached_succ_of_notMem setup.gaps own inBlock]
        simp [starting, inBlock]
  case idle =>
      intro v idle
      by_cases inBlock : v ∈ uni
      · rw [cached_succ_of_mem setup.gaps own inBlock] at idle
        have other : v ∉ starting setup b uni := fun starts =>
          idle (of_decide_eq_true (List.mem_filter.mp starts).2)
        change (nextFlag setup store b uni).getD v 0 = 0
        rw [refines.nextFlag_other own other]
        split
        case isTrue => rfl
        case isFalse stays =>
            exact refines.idle v fun cached =>
              stays ((mem_curEndFlushIdx setup.gaps own).mpr ⟨inBlock, cached⟩)
      · rw [cached_succ_of_notMem setup.gaps own inBlock] at idle
        exact (refines.nextFlag_outside own inBlock).trans (refines.idle v idle)
  case bounded =>
      intro v
      change (nextFlag setup store b uni).getD v 0 ≤ _
      by_cases starts : v ∈ starting setup b uni
      · exact small _ (foundMem v starts)
      · rw [refines.nextFlag_other own starts]
        split
        · exact Nat.zero_le _
        · exact refines.bounded v
  case rows =>
      have held : (pool.release (leaving setup b)).Holds store.cacheMemory
          (valueOf (writeAll table uni mems)) := by
        intro x keeps
        have row := refines.rows.release (leaving setup b) x keeps
        rcases (refines.kept own x).mp keeps with rfl | ⟨v, rfl, outside, -⟩
        · exact row
        · rw [valueOf, writeAll_other outside]
          exact row
      have written := held.assign assigns (fun x entering => by
        obtain ⟨v, starts, rfl⟩ := List.mem_map.mp entering
        have bound := small _ (foundMem v starts)
        rw [slot, refines.cacheLength]
        exact Nat.lt_succ_of_le bound)
      rw [slot, slots, List.map_map] at written
      exact written
  case stored =>
      intro k before v node idle
      have inNodes : v < setup.info.numNodes := by
        obtain ⟨list, found, inList⟩ := node
        exact setup.info.known list (List.mem_of_getElem? found) v inList
      by_cases inBlock : v ∈ uni
      · rw [cached_succ_of_mem setup.gaps own inBlock] at idle
        have flushed : v ∈ flushing setup b uni :=
          List.mem_filter.mpr ⟨inBlock, by simpa using idle⟩
        exact indexAssign_column (fun v => (writeAll table uni mems v).1.pack)
          (flushing_nodup own) flushed (by rw [refines.diskLength]; exact setup.inFile v inNodes)
      · have earlier : k < b := by
          rcases Nat.lt_succ_iff_lt_or_eq.mp before with earlier | rfl
          · exact earlier
          · exact absurd ((has v).mp node) inBlock
        rw [cached_succ_of_notMem setup.gaps own inBlock] at idle
        rw [indexAssign_other, writeAll_other inBlock, refines.stored k earlier v node idle]
        intro overwritten
        obtain ⟨w, flushed, same⟩ := List.mem_map.mp overwritten
        have inList := (List.mem_filter.mp flushed).1
        obtain rfl := setup.injective w (known w inList) v inNodes same
        exact inBlock inList
  case fresh =>
      intro v never
      have outside : v ∉ uni := fun inBlock =>
        never b (Nat.lt_succ_self b) ((has v).mpr inBlock)
      rw [writeAll_other outside]
      exact refines.fresh v fun k before => never k (Nat.lt_succ_of_lt before)

end Update

/-! ## The main result -/

/-- The cache before the next call: exactly the nodes that the plan caches have a
slot, each one of its own, and the next update's search for slots will not come
up short. -/
structure CacheSound (setup : MemorySetup) (session : Session α) : Prop where
  nonzero : ∀ v, session.store.nodeCacheFlag.getD v 0 ≠ 0 ↔
    Cached setup.intervals session.curBlock v
  distinct : ∀ v w, Cached setup.intervals session.curBlock v →
    Cached setup.intervals session.curBlock w →
    session.store.nodeCacheFlag.getD v 0 = session.store.nodeCacheFlag.getD w 0 → v = w
  bounded : ∀ v, session.store.nodeCacheFlag.getD v 0 ≤ setup.plan.simpleMaxNum
  supplied : session.curBlock < setup.info.blocks.length →
    (cacheUnusedIdx setup.plan session.store session.curBlock).2.length =
      (raggedRow setup.plan.startCacheInd setup.plan.startCachePtr session.curBlock).length

theorem Refines.cacheSound {setup : MemorySetup} {session : Session α}
    {table : Nat → NodeRow α param} {pool : SlotPool (Option Nat)}
    (refines : Refines setup session.curBlock session.store table pool) :
    CacheSound setup session := by
  constructor
  case nonzero =>
      intro v
      constructor
      · intro slot
        by_contra idle
        exact slot (refines.idle v idle)
      · exact refines.slot_ne_zero
  case distinct =>
      intro v w vCached wCached same
      have slots : pool.slot (some v) = pool.slot (some w) := by
        rw [refines.slot]
        exact same
      exact Option.some.inj (pool.slot_injective ((refines.live v).mpr vCached)
        ((refines.live w).mpr wCached) slots)
  case bounded => exact refines.bounded
  case supplied =>
      intro bound
      have own := List.getElem?_eq_getElem bound
      rw [starting_length own]
      exact (refines.supplied own).2.2.1

/-- A worker and a table that agree go on agreeing. -/
theorem session_refines {setup : MemorySetup} (session : Session α) (run : TableRun α param)
    {pool : SlotPool (Option Nat)}
    (refines : Refines setup session.curBlock session.store run.table pool)
    (turn : run.curBlock = session.curBlock) (agree : session.results = run.results)
    {calls : List (Call α param)} (allowed : Allowed setup.info.blocks session.curBlock calls) :
    (calls.foldl (Session.call setup) session).results =
        (calls.foldl (TableRun.call setup.info.blocks) run).results ∧
      CacheSound setup (calls.foldl (Session.call setup) session) := by
  induction calls generalizing session run pool with
  | nil => exact ⟨agree, refines.cacheSound⟩
  | cons call calls ih =>
      cases call with
      | update mems schedule =>
          obtain ⟨bound, aligned, rest⟩ := allowed
          have own : setup.info.blocks[session.curBlock]? =
              some (setup.info.blocks.getD session.curBlock []) := by simp [bound]
          obtain ⟨after, next⟩ := refines.update own schedule aligned
          rw [← turn] at next
          exact ih (session.call setup (.update mems schedule))
            (run.call setup.info.blocks (.update mems schedule))
            (by simpa only [Session.call, TableRun.call, turn] using next)
            (congrArg (· + 1) turn) agree rest
      | select nodes =>
          refine ih (session.call setup (.select nodes : Call α param))
            (run.call setup.info.blocks (.select nodes)) refines turn ?_ allowed
          simp only [Session.call, TableRun.call, agree, refines.memSelect]

theorem Allowed.left {blocks : List (List Nat)} {b : Nat} {done rest : List (Call α param)}
    (allowed : Allowed blocks b (done ++ rest)) : Allowed blocks b done := by
  induction done generalizing b with
  | nil => trivial
  | cons call done ih =>
      cases call with
      | update mems schedule => exact ⟨allowed.1, allowed.2.1, ih allowed.2.2⟩
      | select nodes => exact @ih b allowed

/-- The memory on disk behaves as a table of rows, and its cache is sound
throughout the run. -/
theorem session_eq_table (setup : MemorySetup) {disk : List (List α)}
    (rows : disk.length = setup.fileRows) {calls : List (Call α param)}
    (allowed : Allowed setup.info.blocks 0 calls) :
    (session setup disk calls).results = (tableRun setup.info.blocks calls).results ∧
      ∀ done rest, calls = done ++ rest → CacheSound setup (session setup disk done) := by
  obtain ⟨pool, refines⟩ := @Refines.reset α _ param setup disk rows
  have prefixes := fun {calls : List (Call α param)} => @session_refines α _ param setup
    ⟨resetMemory param setup.plan setup.info.numNodes disk, 0, []⟩
    ⟨fun _ => NodeRow.zeros α param, 0, []⟩ pool refines rfl rfl calls
  constructor
  · exact (prefixes allowed).1
  · rintro done rest rfl
    exact (prefixes allowed.left).2

/-- Three nodes in four blocks with room for one cached node, whose rows in the
file are in another order. -/
def smallSetup : MemorySetup where
  info :=
    { blocks := [[0, 1], [2], [0, 1], [1]]
      numNodes := 3
      distinct := by decide
      known := by decide }
  limit := 1
  weightOrder := [2, 1, 0]
  order := by decide
  nodeReorderMap := [1, 0, 2]
  fileRows := 3
  inFile := by decide
  injective := by decide

/-- A row of one entry for the memory and one mail. -/
def smallRow (value : Nat) : NodeRow Nat ⟨1, 1, 0⟩ :=
  ⟨⟨[value], value + 1, [[value + 2, value + 3]], [value + 4]⟩,
    ⟨rfl, rfl, by simp [MemoryParam.mailDim], rfl⟩⟩

/-- Node 1 is read from the cache and node 0 from the file, then both anew. -/
theorem session_eq_table_small :
    (session smallSetup (List.replicate 3 (List.replicate 5 9))
      [.update [smallRow 10, smallRow 20] ⟨id, fun _ => List.Perm.refl _⟩,
        .select [2, 1, 0], .update [smallRow 30] ⟨List.reverse, List.reverse_perm⟩,
        .update [smallRow 40, smallRow 50] ⟨List.reverse, List.reverse_perm⟩,
        .select [0, 1, 2]]).results =
      [[(NodeRow.zeros Nat ⟨1, 1, 0⟩).1, (smallRow 20).1, (smallRow 10).1],
        [(smallRow 40).1, (smallRow 50).1, (smallRow 30).1]] := by
  refine (session_eq_table smallSetup rfl ?_).1.trans (by decide)
  simp [Allowed, smallSetup]

end Dolphin.Memory
