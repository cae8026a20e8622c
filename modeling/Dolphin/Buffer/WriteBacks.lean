import Dolphin.Buffer.Epoch
import Dolphin.Memory.SimplePlan

/-!
# The node lists that are written back

The worker writes memory rows back by the plan of `node_memory.py`, which names nodes by
their positions in the lists of `gen_part`. `run_batch` computes its lists itself, from
`cur_block`, and each one travels with the request for the block after the next one.
Both sides agree: the worker uses the plan of the block whose list it has, and the list
is the planned one.
-/

namespace Dolphin.Buffer

open Dolphin.Memory Dolphin.Sampler Dolphin.Tensor

/-- What the planner and the runner start from. -/
structure WriteBack where
  /-- `datas['src']` and `datas['dst']`. -/
  src : List Nat
  dst : List Nat
  sizes : BlockConfig
  useAsync : Bool
  modelEval : Bool
  /-- `part_node_map` of each block. -/
  nodeMap : Nat → List Nat

namespace WriteBack

variable (run : WriteBack)

/-! ## The planner -/

/-- `nid_uni` of a block. -/
def nidUni (left right : Nat) : List Nat :=
  sort (unique (unique (slice run.src left right ++ slice run.dst left right)))

/-- The variables of `gen_part`. -/
structure PlanVars where
  res : List (List Nat)
  left : Nat
  right : Nat
  preRootNodes : Option (List Nat)

/-- The loop of `gen_part`. -/
def genPartLoop : Nat → PlanVars → Option PlanVars
  | 0, _ => none
  | fuel + 1, vars =>
      let right := min run.sizes.trainEdgeEnd (vars.right + run.sizes.preSampleSize)
      if right ≤ vars.left then some vars
      else
        let nidUni := run.nidUni vars.left right
        genPartLoop fuel
          { res := match vars.preRootNodes with
              | some preRootNodes =>
                  vars.res ++ [maskSelect (isin preRootNodes nidUni true) preRootNodes]
              | none => vars.res
            left := right
            right := right
            preRootNodes := some nidUni }

/-- `gen_part`: `block_info`. The last list is `nid_uni`, which is not defined when there
was no block. -/
def genPart : Option (List (List Nat)) := do
  let vars ← run.genPartLoop (run.sizes.trainEdgeEnd + 1) ⟨[], 0, 0, none⟩
  let nidUni ← vars.preRootNodes
  some (vars.res ++ [nidUni])

/-! ## The runner -/

/-- `root_nodes` of a block. -/
def rootNodes (block : Nat) : List Nat :=
  let start := run.sizes.blockStart block
  let stop := run.sizes.blockEnd block
  unique (slice run.src start stop ++ slice run.dst start stop)

/-- The roots of a block that are not roots of the next one. -/
def retiredRoots (block : Nat) : List Nat :=
  maskSelect (isin (run.rootNodes block) (run.rootNodes (block + 1)) true) (run.rootNodes block)

/-- The attributes of `Feat_buffer` that the lists depend on. -/
structure ListState where
  curBlock : Nat
  partNodeMap : Option (List Nat)
  memoryInfo : Option (List Nat)

/-- `reset`. -/
def ListState.reset : ListState := ⟨0, none, none⟩

/-- A `pre_fetch` request: the block, and the nodes of `memory_info`. -/
structure ListRequest where
  blockNum : Nat
  memoryInfo : Option (List Nat)

/-- `memory_info` at the beginning of `run_batch`. Its rows are None when there is no map. -/
def memoryInfo (state : ListState) : Option (List Nat) :=
  state.partNodeMap.map fun partNodeMap =>
    if run.modelEval then partNodeMap else run.retiredRoots (state.curBlock - 1)

/-- `pre_neg_sample` has something to sample. -/
def HasNeg (block : Nat) : Prop := run.sizes.blockStart block < run.sizes.blockEnd block

instance (block : Nat) : Decidable (run.HasNeg block) := inferInstanceAs (Decidable (_ < _))

/-- `run_batch` at the first batch of a block. Without `use_async` the request for the
block is sent now, with what was stored for it; else the one for the next block is. -/
def trigger (state : ListState) : List ListRequest × ListState :=
  let memoryInfo := run.memoryInfo state
  let loads := if state.curBlock = 0 ∨ run.useAsync then [] else
    [⟨state.curBlock, state.memoryInfo⟩]
  let ahead := if run.HasNeg (state.curBlock + 1) ∧ run.useAsync then
    [⟨state.curBlock + 1, memoryInfo⟩] else []
  (loads ++ ahead,
    { curBlock := state.curBlock + 1
      partNodeMap := some (run.nodeMap state.curBlock)
      memoryInfo := if run.HasNeg (state.curBlock + 1) ∧ ¬run.useAsync then memoryInfo
        else state.memoryInfo })

/-- `run_batch`. -/
def runBatch (left : Nat) (state : ListState) : List ListRequest × ListState :=
  if left % run.sizes.preSampleSize = 0 then run.trigger state else ([], state)

/-- The requests of a training epoch, whose batches begin with the edges `lefts`. -/
def requests : List Nat → ListState → List ListRequest
  | [], _ => []
  | left :: lefts, state =>
      (run.runBatch left state).1 ++ requests lefts (run.runBatch left state).2

/-- The calls of `mem_update` in `pre_fetch`: the block of the plan, which is
`pre_fetch_block - 2`, and the nodes. -/
def memUpdates (lefts : List Nat) : List (Int × List Nat) :=
  (run.requests lefts .reset).filterMap fun request =>
    request.memoryInfo.map fun nodes => ((request.blockNum : Int) - 2, nodes)

/-! ## Blocks -/

/-- The batches of a block fill it. -/
structure Sized : Prop where
  positive : 0 < run.sizes.preSampleSize
  divides : run.sizes.trainBatchSize ∣ run.sizes.preSampleSize

/-- The last block with training edges. -/
def lastBlock : Nat := (run.sizes.trainEdgeEnd - 1) / run.sizes.preSampleSize

variable {run}

theorem Sized.batchNum_mul (sized : run.Sized) :
    run.sizes.batchNum * run.sizes.trainBatchSize = run.sizes.preSampleSize :=
  Nat.div_mul_cancel sized.divides

theorem Sized.blockStart (sized : run.Sized) (block : Nat) :
    run.sizes.blockStart block = block * run.sizes.preSampleSize := by
  rw [BlockConfig.blockStart, Nat.mul_assoc, sized.batchNum_mul]

theorem Sized.blockEnd (sized : run.Sized) (block : Nat) :
    run.sizes.blockEnd block =
      min run.sizes.trainEdgeEnd (block * run.sizes.preSampleSize + run.sizes.preSampleSize) := by
  rw [BlockConfig.blockEnd, Nat.add_mul, Nat.mul_assoc, sized.batchNum_mul]

theorem Sized.hasNeg_iff (sized : run.Sized) (block : Nat) :
    run.HasNeg block ↔ block * run.sizes.preSampleSize < run.sizes.trainEdgeEnd := by
  have positive := sized.positive
  rw [HasNeg, sized.blockStart, sized.blockEnd]
  omega

theorem Sized.le_lastBlock (sized : run.Sized) {block : Nat} (hasNeg : run.HasNeg block) :
    block ≤ run.lastBlock := by
  have starts := (sized.hasNeg_iff block).mp hasNeg
  exact (Nat.le_div_iff_mul_le sized.positive).mpr (by omega)

theorem Sized.hasNeg_of_le (sized : run.Sized) (edges : 0 < run.sizes.trainEdgeEnd) {block : Nat}
    (le : block ≤ run.lastBlock) : run.HasNeg block := by
  have starts := (Nat.le_div_iff_mul_le sized.positive).mp le
  exact (sized.hasNeg_iff block).mpr (by omega)

/-! ## The planned lists -/

/-- The planner's roots of a block are the runner's. -/
theorem Sized.nidUni (sized : run.Sized) (block : Nat) :
    run.nidUni (block * run.sizes.preSampleSize)
        (min run.sizes.trainEdgeEnd
          (block * run.sizes.preSampleSize + run.sizes.preSampleSize)) = run.rootNodes block := by
  rw [rootNodes, sized.blockStart, sized.blockEnd, WriteBack.nidUni]
  generalize slice run.src _ _ ++ slice run.dst _ _ = roots
  have again : unique (unique roots) = unique roots :=
    (IdSet.ofList roots).ids_eq (IdSet.ofList (unique roots)).increasing fun x => by
      simp [IdSet.ofList]
  rw [again]
  exact (IdSet.ofList roots).sort_ids

/-- The variables of `gen_part` in front of a block. -/
def varsAt (run : WriteBack) (block : Nat) : PlanVars where
  res := (List.range (block - 1)).map run.retiredRoots
  left := min run.sizes.trainEdgeEnd (block * run.sizes.preSampleSize)
  right := min run.sizes.trainEdgeEnd (block * run.sizes.preSampleSize)
  preRootNodes := if block = 0 then none else some (run.rootNodes (block - 1))

/-- The turn for a block. -/
theorem Sized.genPartLoop_turn (sized : run.Sized) {block : Nat} (hasNeg : run.HasNeg block)
    (fuel : Nat) : run.genPartLoop (fuel + 1) (run.varsAt block) =
      run.genPartLoop fuel (run.varsAt (block + 1)) := by
  have positive := sized.positive
  have starts := (sized.hasNeg_iff block).mp hasNeg
  have next : (block + 1) * run.sizes.preSampleSize =
      block * run.sizes.preSampleSize + run.sizes.preSampleSize := Nat.succ_mul _ _
  have left : min run.sizes.trainEdgeEnd (block * run.sizes.preSampleSize) =
      block * run.sizes.preSampleSize := Nat.min_eq_right (Nat.le_of_lt starts)
  have roots := sized.nidUni block
  rw [genPartLoop]
  simp only [varsAt, left, next]
  rw [if_neg (by omega), roots]
  cases block with
  | zero => rfl
  | succ block =>
      have more : (List.range (block + 1)).map run.retiredRoots =
          (List.range block).map run.retiredRoots ++ [run.retiredRoots block] := by
        rw [List.range_succ, List.map_append, List.map_singleton]
      simp only [Nat.add_one_sub_one, Nat.succ_ne_zero, if_false, more]
      rfl

/-- From a block on the loop goes through the remaining blocks. -/
theorem Sized.genPartLoop_blocks (sized : run.Sized) (edges : 0 < run.sizes.trainEdgeEnd)
    {block fuel : Nat} (known : block ≤ run.lastBlock + 1)
    (enough : run.lastBlock + 1 - block < fuel) :
    run.genPartLoop fuel (run.varsAt block) = some (run.varsAt (run.lastBlock + 1)) := by
  induction fuel generalizing block with
  | zero => omega
  | succ fuel ih =>
      rcases Nat.lt_or_ge run.lastBlock block with behind | within
      · obtain rfl : block = run.lastBlock + 1 := by omega
        have all : run.sizes.trainEdgeEnd ≤
            (run.lastBlock + 1) * run.sizes.preSampleSize := by
          by_contra more
          have hasNeg := (sized.hasNeg_iff (run.lastBlock + 1)).mpr (Nat.lt_of_not_le more)
          exact absurd (sized.le_lastBlock hasNeg) (Nat.not_succ_le_self _)
        rw [genPartLoop]
        refine if_pos ?_
        simp only [varsAt, Nat.min_eq_left all]
        exact Nat.min_le_left _ _
      · rw [sized.genPartLoop_turn (sized.hasNeg_of_le edges within)]
        exact ih (by omega) (by omega)

/-- `block_info`: what retires with each block, and all roots of the last one. -/
theorem Sized.genPart_eq (sized : run.Sized) (edges : 0 < run.sizes.trainEdgeEnd) :
    run.genPart = some ((List.range run.lastBlock).map run.retiredRoots ++
      [run.rootNodes run.lastBlock]) := by
  have start : run.varsAt 0 = ⟨[], 0, 0, none⟩ := by simp [varsAt]
  have room : run.lastBlock + 1 - 0 < run.sizes.trainEdgeEnd + 1 := by
    have below : run.lastBlock ≤ run.sizes.trainEdgeEnd - 1 := Nat.div_le_self _ _
    omega
  have loop := sized.genPartLoop_blocks edges (Nat.zero_le _) room
  rw [start] at loop
  rw [genPart, loop]
  rfl

/-- They are distinct nodes of the edges. -/
theorem Sized.genPart_nodes (sized : run.Sized) (edges : 0 < run.sizes.trainEdgeEnd)
    {blocks : List (List Nat)} (planned : run.genPart = some blocks) {uni : List Nat}
    (member : uni ∈ blocks) : uni.Nodup ∧ ∀ v ∈ uni, v ∈ run.src ∨ v ∈ run.dst := by
  have roots (block : Nat) : (run.rootNodes block).Nodup ∧
      ∀ v ∈ run.rootNodes block, v ∈ run.src ∨ v ∈ run.dst := by
    refine ⟨unique_nodup _, fun v root => ?_⟩
    refine (List.mem_append.mp (mem_unique.mp root)).imp ?_ ?_ <;>
      exact fun inSlice => List.mem_of_mem_take (List.mem_of_mem_drop inSlice)
  rw [sized.genPart_eq edges] at planned
  obtain rfl := Option.some.inj planned
  rcases List.mem_append.mp member with retired | last
  · obtain ⟨block, -, rfl⟩ := List.mem_map.mp retired
    rw [retiredRoots, maskSelect_isin]
    exact ⟨(roots block).1.filter _, fun v kept => (roots block).2 v (List.mem_of_mem_filter kept)⟩
  · obtain rfl := List.mem_singleton.mp last
    exact roots _

/-! ## The lists that are sent -/

variable (run) in
/-- What `memory_info` is in front of a block: nothing at the first one. -/
def listBefore (block : Nat) : Option (List Nat) :=
  if block = 0 then none else some (run.retiredRoots (block - 1))

variable (run) in
/-- A buffer in front of a block. -/
structure Ready (block : Nat) (state : ListState) : Prop where
  curBlock : state.curBlock = block
  partNodeMap : state.partNodeMap.isSome ↔ 0 < block
  stored : run.useAsync = false → 0 < block → run.HasNeg block →
    state.memoryInfo = run.listBefore (block - 1)

variable (run) in
/-- A request for a block of the run has the list of the block before the last one. -/
structure Aligned (request : ListRequest) : Prop where
  positive : 0 < request.blockNum
  hasNeg : run.HasNeg request.blockNum
  memoryInfo : request.memoryInfo = run.listBefore (request.blockNum - 1)

theorem Ready.memoryInfo {block : Nat} {state : ListState} (ready : run.Ready block state)
    (training : run.modelEval = false) : run.memoryInfo state = run.listBefore block := by
  have map := ready.partNodeMap
  rw [WriteBack.memoryInfo, ready.curBlock, listBefore]
  cases loaded : state.partNodeMap with
  | none =>
      have zero : block = 0 := by
        rw [loaded] at map
        simpa using map
      simp [zero]
  | some partNodeMap =>
      have later : block ≠ 0 := by
        rw [loaded] at map
        exact Nat.ne_of_gt (map.mp rfl)
      simp [training, later]

/-- The requests at the first batch of a block, and the buffer behind it. -/
theorem Ready.trigger {block : Nat} {state : ListState} (ready : run.Ready block state)
    (training : run.modelEval = false) (hasNeg : run.HasNeg block) :
    (∀ request ∈ (run.trigger state).1, run.Aligned request) ∧
      run.Ready (block + 1) (run.trigger state).2 := by
  have info := ready.memoryInfo training
  refine ⟨?_, ?_, ?_, ?_⟩
  · intro request member
    rw [WriteBack.trigger, info, ready.curBlock] at member
    rcases List.mem_append.mp member with loads | ahead
    · split at loads
      case isTrue => cases loads
      case isFalse asks =>
          rw [not_or, Bool.not_eq_true] at asks
          obtain rfl := List.mem_singleton.mp loads
          have positive := Nat.pos_of_ne_zero asks.1
          exact ⟨positive, hasNeg, ready.stored asks.2 positive hasNeg⟩
    · split at ahead
      case isTrue asks =>
          obtain rfl := List.mem_singleton.mp ahead
          exact ⟨Nat.succ_pos block, asks.1, rfl⟩
      case isFalse => cases ahead
  · rw [WriteBack.trigger, ready.curBlock]
  · exact iff_of_true rfl (Nat.succ_pos block)
  · intro sync _ next
    simp only [WriteBack.trigger, ready.curBlock, info]
    rw [if_pos ⟨next, by simp [sync]⟩]
    rfl

/-- The batches that open a block. -/
def openings (run : WriteBack) (lefts : List Nat) : List Nat :=
  lefts.filter fun left => left % run.sizes.preSampleSize = 0

/-- Every request of a run has the list of the block before the last one. -/
theorem Ready.requests (training : run.modelEval = false) {lefts : List Nat} {block : Nat}
    {state : ListState} (ready : run.Ready block state)
    (blocks : ∀ later < block + (run.openings lefts).length, run.HasNeg later) :
    ∀ request ∈ run.requests lefts state, run.Aligned request := by
  induction lefts generalizing block state with
  | nil => exact fun _ member => absurd member List.not_mem_nil
  | cons left lefts ih =>
      intro request member
      rw [WriteBack.requests, runBatch] at member
      by_cases opens : left % run.sizes.preSampleSize = 0
      · have count : (run.openings (left :: lefts)).length = (run.openings lefts).length + 1 := by
          simp [openings, opens]
        rw [count] at blocks
        rw [if_pos opens] at member
        obtain ⟨sent, next⟩ := ready.trigger training (blocks block (by omega))
        rcases List.mem_append.mp member with own | later
        · exact sent request own
        · exact ih next (fun later bound => blocks later (by omega)) request later
      · have count : run.openings (left :: lefts) = run.openings lefts := by
          simp [openings, opens]
        rw [count] at blocks
        rw [if_neg opens] at member
        exact ih ready blocks request member

/-- Batches that begin with distinct training edges open no more blocks than there are. -/
theorem openings_length {lefts : List Nat} (distinct : lefts.Nodup)
    (trained : ∀ left ∈ lefts, left < run.sizes.trainEdgeEnd) :
    (run.openings lefts).length ≤ run.lastBlock + 1 := by
  have starts : run.openings lefts ⊆
      (List.range (run.lastBlock + 1)).map (· * run.sizes.preSampleSize) := by
    intro left member
    obtain ⟨own, opens⟩ := List.mem_filter.mp member
    have multiple : left / run.sizes.preSampleSize * run.sizes.preSampleSize = left :=
      Nat.div_mul_cancel (Nat.dvd_of_mod_eq_zero (by simpa using opens))
    have below : left / run.sizes.preSampleSize ≤ run.lastBlock :=
      Nat.div_le_div_right (Nat.le_sub_one_of_lt (trained left own))
    exact List.mem_map.mpr ⟨_, List.mem_range.mpr (Nat.lt_succ_of_le below), multiple⟩
  have count := (List.subperm_of_subset (distinct.filter _) starts).length_le
  simpa [openings] using count

/-- In training every `mem_update` uses the plan of the block whose roots it has, and they
are those of the plan, in its order: what is planned to enter the cache and to be written
to the file is the same at run time. The batches begin with distinct training edges. -/
theorem memUpdates_planned (run : WriteBack) (sized : run.Sized)
    (training : run.modelEval = false) (lefts : List Nat) (distinct : lefts.Nodup)
    (trained : ∀ left ∈ lefts, left < run.sizes.trainEdgeEnd) (intervals : List Interval) :
    ∀ planIndex nodes, (planIndex, nodes) ∈ run.memUpdates lefts → ∃ block blockInfo,
      planIndex = Int.ofNat block ∧ nodes = run.retiredRoots block ∧
      run.genPart = some blockInfo ∧ blockInfo[block]? = some nodes ∧
      let plan := genSimple blockInfo intervals
      gather nodes (raggedRow plan.startCacheInd plan.startCachePtr block) =
          (nodes.filter fun v => decide (Starts intervals block v)) ∧
        gather nodes (raggedRow plan.startFlushInd plan.startFlushPtr block) =
          nodes.filter fun v => !decide (Starts intervals block v) := by
  intro planIndex nodes member
  obtain ⟨request, sent, call⟩ := List.mem_filterMap.mp member
  obtain ⟨list, info, same⟩ := Option.map_eq_some_iff.mp call
  have edges : 0 < run.sizes.trainEdgeEnd := by
    cases lefts with
    | nil => cases sent
    | cons left lefts => exact Nat.zero_lt_of_lt (trained left List.mem_cons_self)
  have blocks : ∀ later < 0 + (run.openings lefts).length, run.HasNeg later := by
    intro later bound
    have count := openings_length distinct trained
    exact sized.hasNeg_of_le edges (by omega)
  have reset : run.Ready 0 .reset :=
    ⟨rfl, by simp [ListState.reset], fun _ positive => absurd positive (Nat.lt_irrefl 0)⟩
  have aligned := reset.requests training blocks request sent
  -- the request is not the first one, which has no list
  have list_eq := aligned.memoryInfo.symm.trans info
  rw [listBefore] at list_eq
  split at list_eq
  case isTrue => cases list_eq
  case isFalse later =>
      obtain ⟨block, number⟩ : ∃ block, request.blockNum = block + 2 :=
        ⟨request.blockNum - 2, by omega⟩
      have retired : run.retiredRoots block = list := by
        rw [number] at list_eq
        exact Option.some.inj list_eq
      obtain ⟨index, rfl⟩ := Prod.mk.inj same
      have bound : block < run.lastBlock := by
        have next := sized.le_lastBlock aligned.hasNeg
        omega
      have planned : ((List.range run.lastBlock).map run.retiredRoots ++
          [run.rootNodes run.lastBlock])[block]? = some list := by
        rw [List.getElem?_append_left (by simpa using bound), List.getElem?_map,
          List.getElem?_range bound, Option.map_some, retired]
      have cached : gather (list.map id) (nonzero (curStartMask intervals list block)) =
          (list.filter fun v => decide (Starts intervals block v)).map id := gather_startCache id
      have flushed : gather (list.map id)
          (nonzero ((curStartMask intervals list block).map (!·))) =
          (list.filter fun v => !decide (Starts intervals block v)).map id := gather_startFlush id
      rw [List.map_id, List.map_id] at cached flushed
      refine ⟨block, _, ?_, retired.symm, sized.genPart_eq edges, planned, ?_, ?_⟩
      · rw [← index, number]
        simp
      · rw [genSimple_startCache planned, cached]
      · rw [genSimple_startFlush planned, flushed]

/-! ## Three blocks -/

/-- Three blocks of two edges. -/
def threeBlocks : WriteBack where
  src := [0, 2, 3, 4, 0, 1]
  dst := [1, 3, 4, 5, 1, 5]
  sizes := ⟨2, 2, 6⟩
  useAsync := false
  modelEval := false
  nodeMap := fun _ => [0, 1, 2, 3, 4, 5]

/-- Nodes 0 and 1 are kept in the cache from the first block to the third, which has them
again. -/
def twoKept : List Interval := [⟨0, 2, 1⟩, ⟨0, 2, 0⟩]

/-- The third block brings back the three nodes that retired with the first one. -/
theorem threeBlocks_planned :
    (0, [0, 1, 2]) ∈ threeBlocks.memUpdates [0, 2, 4] ∧ ∃ block blockInfo,
      (0 : Int) = Int.ofNat block ∧ [0, 1, 2] = threeBlocks.retiredRoots block ∧
      threeBlocks.genPart = some blockInfo ∧ blockInfo[block]? = some [0, 1, 2] ∧
      let plan := genSimple blockInfo twoKept
      gather [0, 1, 2] (raggedRow plan.startCacheInd plan.startCachePtr block) =
          ([0, 1, 2].filter fun v => decide (Starts twoKept block v)) ∧
        gather [0, 1, 2] (raggedRow plan.startFlushInd plan.startFlushPtr block) =
          [0, 1, 2].filter fun v => !decide (Starts twoKept block v) := by
  have sent : (0, [0, 1, 2]) ∈ threeBlocks.memUpdates [0, 2, 4] := by decide
  exact ⟨sent, memUpdates_planned threeBlocks ⟨by decide, by decide⟩ rfl [0, 2, 4] (by decide)
    (by decide) twoKept 0 [0, 1, 2] sent⟩

end WriteBack

/-! ## The epoch -/

/-- The lists of an epoch. -/
def Epoch.writeBack {φ ψ α : Type} (epoch : Epoch φ ψ α) (useAsync : Bool) : WriteBack where
  src := epoch.src
  dst := epoch.dst
  sizes := epoch.sizes
  useAsync := useAsync
  modelEval := epoch.config.modelEval
  nodeMap := epoch.nodeMap

section Epoch

variable {φ ψ α : Type}

/-- The attributes of the buffer that the lists depend on. -/
def BufferState.lists (state : BufferState φ ψ α) : WriteBack.ListState where
  curBlock := state.curBlock
  partNodeMap := state.gpu.map fun gpu => gpu.node.map
  memoryInfo := state.stored.bind fun stored => stored.1.map Prod.fst

theorem BufferState.lists_updates (state : BufferState φ ψ α) (calls : List (Update α)) :
    (state.updates calls).lists = state.lists := by
  simp only [lists, updates, Option.map_map]
  congr 2
  exact funext fun gpu => by rw [Function.comp_apply, Gpu.updates_node]

/-- The lists behind some batches. -/
def WriteBack.listsAfter (run : WriteBack) (lefts : List Nat) (state : ListState) : ListState :=
  lefts.foldl (fun state left => (run.runBatch left state).2) state

variable [Inhabited φ] [Inhabited ψ] [Inhabited α] {epoch : Epoch φ ψ α}

omit [Inhabited φ] [Inhabited ψ] in
/-- The nodes of an epoch's `memory_info`. -/
theorem Epoch.memoryInfo_nodes (epoch : Epoch φ ψ α) (useAsync : Bool)
    (state : BufferState φ ψ α) :
    (epoch.memoryInfo state.curBlock state.gpu).map Prod.fst =
      (epoch.writeBack useAsync).memoryInfo state.lists := by
  rw [Epoch.memoryInfo, WriteBack.memoryInfo, BufferState.lists, Option.map_map, Option.map_map]
  refine congrArg (fun nodes => Option.map nodes state.gpu) (funext fun gpu => ?_)
  exact apply_ite Prod.fst _ _ _

/-- The first batch of a block. -/
theorem Epoch.trigger_lists {state : BufferState φ ψ α} {gpu : Gpu φ ψ α}
    (loads : (epoch.trigger state).gpu = some gpu)
    (map : gpu.node.map = epoch.nodeMap state.curBlock) :
    (epoch.trigger state).lists = ((epoch.writeBack false).trigger state.lists).2 := by
  have nodes := epoch.memoryInfo_nodes false state
  have hasNeg : (epoch.writeBack false).HasNeg (state.curBlock + 1) ↔
      epoch.sizes.blockStart (state.curBlock + 1) < epoch.sizes.blockEnd (state.curBlock + 1) :=
    Iff.rfl
  rw [BufferState.lists, loads, Option.map_some, map, WriteBack.trigger, ← nodes]
  by_cases samples : epoch.sizes.blockStart (state.curBlock + 1) <
      epoch.sizes.blockEnd (state.curBlock + 1)
  · simp only [Epoch.trigger, Epoch.preNegSample, if_pos samples, Option.bind_some]
    rw [if_pos ⟨hasNeg.mpr samples, Bool.false_ne_true⟩]
    rfl
  · simp only [Epoch.trigger, Epoch.preNegSample, if_neg samples]
    rw [if_neg fun both => samples (hasNeg.mp both.1)]
    rfl

/-- The lists of an epoch are those of its batches. -/
theorem Epoch.started_lists {i : Nat} (batch : epoch.HasBatch i) :
    (epoch.started i).lists = (epoch.writeBack false).listsAfter
      ((List.range (i + 1)).map (· * epoch.sizes.trainBatchSize)) .reset := by
  have next (i : Nat) : (epoch.writeBack false).listsAfter
      ((List.range (i + 2)).map (· * epoch.sizes.trainBatchSize)) .reset =
        ((epoch.writeBack false).runBatch ((i + 1) * epoch.sizes.trainBatchSize)
          ((epoch.writeBack false).listsAfter
            ((List.range (i + 1)).map (· * epoch.sizes.trainBatchSize)) .reset)).2 := by
    rw [List.range_succ, List.map_append, WriteBack.listsAfter, List.foldl_append]
    rfl
  have opens (i : Nat) : i * epoch.sizes.trainBatchSize %
      (epoch.writeBack false).sizes.preSampleSize = 0 ↔ i % epoch.sizes.batchNum = 0 :=
    epoch.left_mod i
  refine (epoch.started_induction (motive := fun i state => (∃ gpu info,
    epoch.Loaded (i / epoch.sizes.batchNum) state gpu info) ∧ state.lists =
      (epoch.writeBack false).listsAfter
        ((List.range (i + 1)).map (· * epoch.sizes.trainBatchSize)) .reset) ?_ ?_ ?_ batch).2
  · have first := epoch.loaded_first
    refine ⟨⟨_, none, by simpa using first⟩, ?_⟩
    rw [Epoch.trigger_lists first.loaded first.nodeMap]
    simp [WriteBack.listsAfter, WriteBack.runBatch, BufferState.lists, Epoch.initial,
      WriteBack.ListState.reset]
  · rintro i _ same ⟨⟨gpu, info, loaded⟩, lists⟩
    have stays : ¬(i + 1) % epoch.sizes.batchNum = 0 := by
      intro multiple
      have moved := Nat.succ_div_of_dvd (Nat.dvd_of_mod_eq_zero multiple)
      omega
    rw [same, next, WriteBack.runBatch, if_neg fun opened => stays ((opens (i + 1)).mp opened)]
    exact ⟨⟨_, _, loaded.updates _⟩, (BufferState.lists_updates _ _).trans lists⟩
  · rintro i later moved ⟨⟨gpu, info, loaded⟩, lists⟩
    have multiple : (i + 1) % epoch.sizes.batchNum = 0 := by
      by_contra stays
      have same := Nat.succ_div_of_not_dvd fun whole => stays (Nat.mod_eq_zero_of_dvd whole)
      omega
    have hasNext : epoch.HasBlock (i / epoch.sizes.batchNum + 1) := moved ▸ later.hasBlock
    have last := loaded.updates (epoch.updates i)
    have own := (last.trigger hasNext).1
    have number : (epoch.finished i).curBlock = i / epoch.sizes.batchNum + 1 := last.curBlock
    rw [moved, next, WriteBack.runBatch, if_pos ((opens (i + 1)).mpr multiple), ← lists,
      ← BufferState.lists_updates (epoch.started i) (epoch.updates i)]
    refine ⟨⟨_, _, own⟩, Epoch.trigger_lists own.loaded ?_⟩
    rw [number]
    exact own.nodeMap

end Epoch

end Dolphin.Buffer
