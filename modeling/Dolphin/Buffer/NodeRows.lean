import Dolphin.Buffer.Epoch

/-!
# The memory rows of the buffer

The reference run keeps one table for all nodes. Whenever `run_batch` returns, and
after every further update, the rows of the buffer are those of the table, although
the host tables lag behind: a root's row stays on the GPU as long as the node is a
root of one block after the other, and goes back to the host with the request for
the block after the next one. `lastSync` is the block at whose start the host had a
node's row.
-/

namespace Dolphin.Buffer

open Dolphin.Graph Dolphin.Memory Dolphin.Sampler Dolphin.Semantics Dolphin.Tensor

/-! ## Updates -/

section Updates

variable {φ ψ α : Type}

/-- A call edits the rows of its nodes only. -/
theorem Update.edits_nid (call : Update α) {v : Nat} (member : v ∈ call.edits.map Prod.fst) :
    v ∈ call.nid := by
  obtain ⟨edit, inEdits, rfl⟩ := List.mem_map.mp member
  cases call with
  | memory nid mem ts => exact (List.of_mem_zip inEdits).1
  | mailbox nid mail mailTs nPtr => exact (List.of_mem_zip inEdits).1

/-- A node of an increasing map is found at its row. -/
theorem rowIndex_spec {map : List Nat} (increasing : map.Pairwise (· < ·)) {v : Nat}
    (member : v ∈ map) : map[rowIndex map v]? = some v := by
  obtain ⟨i, found, value⟩ := findSameIndex_mem (increasing.imp Nat.le_of_lt) member
  rw [rowIndex, found]
  exact value

/-- A call on nodes of the buffer does to the rows what it does to the table. -/
theorem Gpu.update_memory {gpu : Gpu φ ψ α} {table : Nat → NodeMem α} {call : Update α}
    (increasing : gpu.node.map.Pairwise (· < ·)) (rows : gpu.memory = gpu.node.map.map table)
    (inMap : ∀ v ∈ call.nid, v ∈ gpu.node.map) :
    (gpu.update call).memory = gpu.node.map.map (editAll table call.edits) := by
  rw [Gpu.update, rows]
  exact editColumn_map (increasing.imp Nat.ne_of_lt) table fun v member =>
    rowIndex_spec increasing (inMap v (call.edits_nid member))

theorem Gpu.updates_memory {gpu : Gpu φ ψ α} {table : Nat → NodeMem α} {calls : List (Update α)}
    (increasing : gpu.node.map.Pairwise (· < ·)) (rows : gpu.memory = gpu.node.map.map table)
    (inMap : ∀ call ∈ calls, ∀ v ∈ call.nid, v ∈ gpu.node.map) :
    (gpu.updates calls).memory = gpu.node.map.map (tableUpdates table calls) := by
  induction calls generalizing gpu table with
  | nil => exact rows
  | cons call calls ih =>
      obtain ⟨first, later⟩ := List.forall_mem_cons.mp inMap
      exact @ih (gpu.update call) _ increasing (Gpu.update_memory increasing rows first) later

/-- A node that no call names keeps its row. -/
theorem tableUpdates_other {calls : List (Update α)} {v : Nat}
    (other : ∀ call ∈ calls, v ∉ call.nid) (table : Nat → NodeMem α) :
    tableUpdates table calls v = table v := by
  induction calls generalizing table with
  | nil => rfl
  | cons call calls ih =>
      obtain ⟨first, later⟩ := List.forall_mem_cons.mp other
      exact (ih later _).trans (editAll_other (fun member => first (call.edits_nid member)) table)

end Updates

/-! ## Loading -/

section Loading

variable {φ ψ α : Type} [Inhabited φ] [Inhabited ψ] [Inhabited α]

/-- Two increasing maps have the nodes they share in the same order. -/
theorem shared_eq {first second : List Nat} (firstIncreasing : first.Pairwise (· < ·))
    (secondIncreasing : second.Pairwise (· < ·)) :
    (first.filter fun v => decide (v ∈ second)) = second.filter fun v => decide (v ∈ first) := by
  let set : IdSet := ⟨second.filter fun v => decide (v ∈ first), secondIncreasing.filter _⟩
  refine set.ids_eq (firstIncreasing.filter _) fun v => ?_
  simp [set, and_comm]

/-- `prefetch_after` completes the rows of the next map, as long as the host has the
rows of the nodes that the buffer does not have. -/
theorem prefetchAfter_memory (config : Config) {host table : Nat → NodeMem α}
    {previous : Gpu φ ψ α} {fetched : PreFetched φ ψ α}
    (increasing : previous.node.map.Pairwise (· < ·))
    (rows : previous.memory = previous.node.map.map table)
    (nextIncreasing : fetched.node.map.Pairwise (· < ·))
    (selected : fetched.memory =
      selectMemory config host previous.node.map fetched.node.map)
    (current : ∀ v ∈ fetched.node.map, v ∉ previous.node.map → host v = table v) :
    (previous.prefetchAfter fetched).memory = fetched.node.map.map table := by
  -- the rows that the worker read, with those that it left out
  have read : ∃ row : Nat → NodeMem α, fetched.memory.rows = fetched.node.map.map row ∧
      ∀ v, v ∉ previous.node.map → row v = host v := by
    cases incre : config.dataIncre with
    | false => exact ⟨host, by simp [selected, selectMemory, incre], fun _ _ => rfl⟩
    | true =>
        refine ⟨fun v => if v ∉ previous.node.map then host v else default, ?_,
          fun v new => if_pos new⟩
        have mask : (isin fetched.node.map previous.node.map false).map (!·) =
            fetched.node.map.map fun v => decide (v ∉ previous.node.map) := by
          rw [isin_false, List.map_map]
          refine List.map_congr_left fun v _ => ?_
          simp
        simp only [selected, selectMemory, incre, if_true, mask, maskSelect_map_self,
          maskAssign_map, decide_eq_true_eq]
  obtain ⟨row, readRows, fresh⟩ := read
  have preSame : fetched.memory.preSame =
      previous.node.map.map fun v => decide (v ∈ fetched.node.map) := by
    rw [selected]
    exact isin_false _ _
  have curSame : fetched.memory.curSame =
      fetched.node.map.map fun v => decide (v ∈ previous.node.map) := by
    rw [selected]
    exact isin_false _ _
  have shared : maskSelect fetched.memory.preSame previous.memory =
      (fetched.node.map.filter fun v => decide (v ∈ previous.node.map)).map table := by
    rw [preSame, rows, maskSelect_map, shared_eq increasing nextIncreasing]
  rw [Gpu.prefetchAfter, readRows, curSame, shared, maskAssign_map]
  refine List.map_congr_left fun v member => ?_
  by_cases known : v ∈ previous.node.map
  · simp [known]
  · simp [known, fresh v known, current v member known]

end Loading

/-! ## The epoch -/

namespace Epoch

variable {φ ψ α : Type} (epoch : Epoch φ ψ α)

/-- The map of every block has the block's roots, and every batch writes the memory of
its block's roots only. -/
structure RootUpdates : Prop where
  rootsInMap : ∀ block, epoch.HasBlock block →
    ∀ v ∈ epoch.rootNodes block, v ∈ epoch.nodeMap block
  onRoots : ∀ i, epoch.HasBatch i → ∀ call ∈ epoch.updates i,
    ∀ v ∈ call.nid, v ∈ epoch.rootNodes (i / epoch.sizes.batchNum)

/-- The nodes whose rows go back to the host after a block. -/
def writtenBack (block : Nat) : List Nat :=
  if epoch.config.modelEval then epoch.nodeMap block else epoch.retiredRoots block

theorem nodeMap_increasing (block : Nat) : (epoch.nodeMap block).Pairwise (· < ·) :=
  mergeMap_increasing _ _

variable {epoch}

theorem mem_retiredRoots {block v : Nat} : v ∈ epoch.retiredRoots block ↔
    v ∈ epoch.rootNodes block ∧ v ∉ epoch.rootNodes (block + 1) := by
  rw [retiredRoots, isin_true, maskSelect_map_self, List.mem_filter, decide_eq_true_eq]

/-- Rows that go back to the host are in the buffer. -/
theorem RootUpdates.writtenBack_mem (updates : epoch.RootUpdates) {block v : Nat}
    (hasBlock : epoch.HasBlock block) (member : v ∈ epoch.writtenBack block) :
    v ∈ epoch.nodeMap block := by
  rw [writtenBack] at member
  split at member
  · exact member
  · exact updates.rootsInMap block hasBlock v (mem_retiredRoots.mp member).1

/-- A root that is not a root of the next block goes back. -/
theorem RootUpdates.mem_writtenBack (updates : epoch.RootUpdates) {block v : Nat}
    (hasBlock : epoch.HasBlock block) (root : v ∈ epoch.rootNodes block)
    (retired : v ∉ epoch.rootNodes (block + 1)) : v ∈ epoch.writtenBack block := by
  rw [writtenBack]
  split
  · exact updates.rootsInMap block hasBlock v root
  · exact mem_retiredRoots.mpr ⟨root, retired⟩

/-- The last block at whose start the host knows a node's row, when a block is
prefetched: that block if its predecessor does not have the node as a root, the
predecessor if the node's row was taken at its start, else what the predecessor's
host knew. -/
def lastSync (epoch : Epoch φ ψ α) (v : Nat) : Nat → Nat
  | 0 => 0
  | block + 1 =>
      if v ∉ epoch.rootNodes block then block + 1
      else if 0 < block ∧ v ∈ epoch.writtenBack (block - 1) then block
      else lastSync epoch v block

/-- In training a node's row goes stale with the first of the consecutive blocks that
have the node as a root. -/
theorem lastSync_training (training : epoch.config.modelEval = false) (v block : Nat) :
    epoch.lastSync v (block + 1) =
      if v ∈ epoch.rootNodes block then epoch.lastSync v block else block + 1 := by
  rw [lastSync]
  by_cases root : v ∈ epoch.rootNodes block
  · have kept : ¬(0 < block ∧ v ∈ epoch.writtenBack (block - 1)) := by
      rintro ⟨positive, written⟩
      rw [writtenBack, training, if_neg Bool.false_ne_true, mem_retiredRoots,
        Nat.sub_add_cancel positive] at written
      exact written.2 root
    simp [root, kept]
  · simp [root]

section Table

variable [Inhabited α]

/-- The reference table when a block starts. -/
def tableAt (epoch : Epoch φ ψ α) (block : Nat) : Nat → NodeMem α :=
  epoch.table (block * epoch.sizes.batchNum)

/-- A batch leaves the rows of other nodes alone. -/
theorem RootUpdates.table_succ (updates : epoch.RootUpdates) {i v : Nat}
    (batch : epoch.HasBatch i) (other : v ∉ epoch.rootNodes (i / epoch.sizes.batchNum)) :
    epoch.table (i + 1) v = epoch.table i v :=
  tableUpdates_other (fun call member named => other (updates.onRoots i batch call member v named))
    _

/-- Inside a block only its roots change. -/
theorem RootUpdates.table_block (updates : epoch.RootUpdates) {i v : Nat}
    (batch : epoch.HasBatch i) (other : v ∉ epoch.rootNodes (i / epoch.sizes.batchNum)) :
    epoch.table i v = epoch.tableAt (i / epoch.sizes.batchNum) v := by
  induction i with
  | zero => simp [tableAt]
  | succ i ih =>
      by_cases opens : epoch.sizes.batchNum ∣ i + 1
      · rw [tableAt, Nat.div_mul_cancel opens]
      · have same := Nat.succ_div_of_not_dvd opens
        rw [same] at other ⊢
        have before := batch.mono (Nat.le_succ i)
        rw [updates.table_succ before other]
        exact ih before other

/-- Over a block only its roots change. -/
theorem RootUpdates.tableAt_succ (updates : epoch.RootUpdates) {block v : Nat}
    (hasBlock : epoch.HasBlock (block + 1)) (other : v ∉ epoch.rootNodes block) :
    epoch.tableAt (block + 1) v = epoch.tableAt block v := by
  have positive := epoch.batchNum_pos
  obtain ⟨last, lastBatch⟩ : ∃ last, (block + 1) * epoch.sizes.batchNum = last + 1 :=
    Nat.exists_eq_succ_of_ne_zero (Nat.mul_ne_zero (Nat.succ_ne_zero _) positive.ne')
  have inBlock : last / epoch.sizes.batchNum = block := by
    rw [Nat.div_eq_iff positive]
    rw [Nat.add_mul] at lastBatch
    omega
  have batch : epoch.HasBatch (last + 1) := by
    rw [← lastBatch]
    exact hasBlock
  rw [← inBlock] at other
  rw [tableAt, lastBatch, updates.table_succ (batch.mono (Nat.le_succ _)) other,
    updates.table_block (batch.mono (Nat.le_succ _)) other, inBlock]

/-- The rows that are taken from the buffer at the start of a block. -/
def infoAt (epoch : Epoch φ ψ α) : Nat → MemoryInfo α
  | 0 => none
  | block + 1 =>
      some (epoch.writtenBack block, (epoch.writtenBack block).map (epoch.tableAt (block + 1)))

/-- The host tables with which a block is prefetched: the rows taken at the start of
the block before it have been written. -/
def hostAt (epoch : Epoch φ ψ α) : Nat → Nat → NodeMem α
  | 0 => fun _ => (NodeRow.zeros α epoch.param).1
  | block + 1 => memUpdate (hostAt epoch block) (epoch.infoAt block)

theorem hostAt_succ (block v : Nat) :
    epoch.hostAt (block + 1) v =
      if 0 < block ∧ v ∈ epoch.writtenBack (block - 1) then epoch.tableAt block v
      else epoch.hostAt block v := by
  cases block with
  | zero => simp [hostAt, infoAt, memUpdate]
  | succ block =>
      rw [hostAt, infoAt, memUpdate, writeAll_map]
      simp

/-- What the host knows of a node. -/
theorem RootUpdates.hostAt_eq (updates : epoch.RootUpdates) {block : Nat}
    (hasBlock : epoch.HasBlock block) (v : Nat) :
    epoch.hostAt block v = epoch.tableAt (epoch.lastSync v block) v := by
  induction block with
  | zero => simp [hostAt, lastSync, tableAt, table]
  | succ block ih =>
      have before : epoch.HasBlock block := hasBlock.mono (Nat.le_succ block)
      rw [hostAt_succ, lastSync]
      by_cases root : v ∈ epoch.rootNodes block
      · rw [if_neg (not_not_intro root)]
        split
        · rfl
        · exact ih before
      · rw [if_pos root, updates.tableAt_succ hasBlock root]
        split
        · rfl
        case isFalse kept =>
            -- the node was no root of the block before either, or it would have gone back
            cases block with
            | zero => simp [hostAt, tableAt, table]
            | succ earlier =>
                have unused : v ∉ epoch.rootNodes earlier := fun used =>
                  kept ⟨Nat.succ_pos _, updates.mem_writtenBack
                    (before.mono (Nat.le_succ earlier)) used root⟩
                rw [ih before, lastSync, if_pos unused]

/-- The host has the row of every node that is no root of the block before. -/
theorem RootUpdates.hostAt_current (updates : epoch.RootUpdates) {block : Nat}
    (hasBlock : epoch.HasBlock (block + 1)) {v : Nat} (other : v ∉ epoch.rootNodes block) :
    epoch.hostAt (block + 1) v = epoch.tableAt (block + 1) v := by
  rw [updates.hostAt_eq hasBlock, lastSync, if_pos other]

end Table

/-! ## The rows -/

section Rows

variable [Inhabited α]

/-- The buffer, the host and the prepared request are those of the reference table. -/
structure Synced (epoch : Epoch φ ψ α) (i : Nat) (state : BufferState φ ψ α)
    (gpu : Gpu φ ψ α) : Prop where
  loaded : epoch.Loaded (i / epoch.sizes.batchNum) state gpu
    (epoch.infoAt (i / epoch.sizes.batchNum))
  memory : gpu.memory = gpu.node.map.map (epoch.table i)
  host : state.host = epoch.hostAt (i / epoch.sizes.batchNum)

/-- Updates on roots keep the rows. -/
theorem Synced.updates {i : Nat} {state : BufferState φ ψ α} {gpu : Gpu φ ψ α}
    (synced : epoch.Synced i state gpu) (updates : epoch.RootUpdates) (batch : epoch.HasBatch i)
    (count : Nat) :
    (gpu.updates ((epoch.updates i).take count)).memory =
      gpu.node.map.map (epoch.tableDuring i count) := by
  have increasing : gpu.node.map.Pairwise (· < ·) := by
    rw [synced.loaded.nodeMap]
    exact epoch.nodeMap_increasing _
  refine Gpu.updates_memory increasing synced.memory fun call member v named => ?_
  rw [synced.loaded.nodeMap]
  exact updates.rootsInMap _ batch.hasBlock v
    (updates.onRoots i batch call (List.mem_of_mem_take member) v named)

/-- The next batch of the same block. -/
theorem Synced.inside {i : Nat} {state : BufferState φ ψ α} {gpu : Gpu φ ψ α}
    (synced : epoch.Synced i state gpu) (updates : epoch.RootUpdates) (batch : epoch.HasBatch i)
    (same : (i + 1) / epoch.sizes.batchNum = i / epoch.sizes.batchNum) :
    epoch.Synced (i + 1) (state.updates (epoch.updates i)) (gpu.updates (epoch.updates i)) where
  loaded := by
    rw [same]
    exact synced.loaded.updates _
  memory := by
    have rows := synced.updates updates batch (epoch.updates i).length
    rw [tableDuring, List.take_length] at rows
    rw [rows, Gpu.updates_node]
    rfl
  host := by
    rw [same, ← synced.host]
    rfl

/-- The rows that are taken from the buffer when a block is over. -/
theorem memoryInfo_eq (updates : epoch.RootUpdates) {block : Nat}
    (hasBlock : epoch.HasBlock block) {gpu : Gpu φ ψ α}
    (nodeMap : gpu.node.map = epoch.nodeMap block)
    (memory : gpu.memory = gpu.node.map.map (epoch.tableAt (block + 1))) :
    epoch.memoryInfo (block + 1) (some gpu) = epoch.infoAt (block + 1) := by
  have member : ∀ v ∈ epoch.writtenBack block, v ∈ gpu.node.map := fun v written => by
    rw [nodeMap]
    exact updates.writtenBack_mem hasBlock written
  rw [memoryInfo, infoAt, Option.map_some, Nat.add_sub_cancel]
  cases eval : epoch.config.modelEval with
  | true => simp [writtenBack, eval, memory, nodeMap]
  | false =>
      simp only [writtenBack, eval, Bool.false_eq_true, if_false] at member ⊢
      have sorted : gpu.node.map.Pairwise (· ≤ ·) := by
        rw [nodeMap]
        exact (epoch.nodeMap_increasing block).imp Nat.le_of_lt
      rw [Gpu.getMails, memory, wrapGather_findSameIndex _ sorted member]

variable [Inhabited φ] [Inhabited ψ]

theorem synced_first (epoch : Epoch φ ψ α) :
    epoch.Synced 0 (epoch.trigger epoch.initial) epoch.firstGpu where
  loaded := by simpa [infoAt] using epoch.loaded_first
  memory := by
    have zeros : epoch.table 0 = epoch.initial.host := rfl
    rw [firstGpu, analyze, analyzeMem, zeros]
    split <;> rfl
  host := by
    rw [Nat.zero_div]
    rfl

/-- The rows of the next block: the buffer has those of the last block's roots, the
host all others that are asked for. -/
theorem nextGpu_memory (updates : epoch.RootUpdates) {block : Nat}
    (hasNext : epoch.HasBlock (block + 1)) {state : BufferState φ ψ α} {gpu : Gpu φ ψ α}
    (loaded : epoch.Loaded block state gpu (epoch.infoAt block))
    (memory : gpu.memory = gpu.node.map.map (epoch.tableAt (block + 1)))
    (host : state.host = epoch.hostAt block) :
    (epoch.nextGpu block state gpu (epoch.infoAt block)).memory =
      (epoch.nodeMap (block + 1)).map (epoch.tableAt (block + 1)) := by
  have increasing : gpu.node.map.Pairwise (· < ·) := by
    rw [loaded.nodeMap]
    exact epoch.nodeMap_increasing block
  have written : memUpdate state.host (epoch.infoAt block) = epoch.hostAt (block + 1) := by
    rw [host]
    rfl
  have current : ∀ v, v ∉ gpu.node.map →
      epoch.hostAt (block + 1) v = epoch.tableAt (block + 1) v := by
    intro v absent
    rw [loaded.nodeMap] at absent
    refine updates.hostAt_current hasNext fun root => ?_
    exact absent (updates.rootsInMap block (hasNext.mono (Nat.le_succ block)) v root)
  rw [nextGpu, written]
  exact prefetchAfter_memory epoch.config increasing memory
    (epoch.nodeMap_increasing (block + 1)) rfl fun v _ => current v

/-- The first batch of the next block. -/
theorem Synced.next {i : Nat} {state : BufferState φ ψ α} {gpu : Gpu φ ψ α}
    (synced : epoch.Synced i state gpu) (updates : epoch.RootUpdates)
    (batch : epoch.HasBatch (i + 1))
    (opens : (i + 1) / epoch.sizes.batchNum = i / epoch.sizes.batchNum + 1) :
    ∃ next, epoch.Synced (i + 1) (epoch.trigger (state.updates (epoch.updates i))) next := by
  have current := batch.mono (Nat.le_succ i)
  have hasNext : epoch.HasBlock (i / epoch.sizes.batchNum + 1) := by
    rw [← opens]
    exact batch.hasBlock
  have start : epoch.table (i + 1) = epoch.tableAt (i / epoch.sizes.batchNum + 1) := by
    have multiple : epoch.sizes.batchNum ∣ i + 1 := by
      by_contra within
      rw [Nat.succ_div_of_not_dvd within] at opens
      omega
    rw [tableAt, ← opens, Nat.div_mul_cancel multiple]
  have last := synced.loaded.updates (epoch.updates i)
  have rows : (gpu.updates (epoch.updates i)).memory =
      (gpu.updates (epoch.updates i)).node.map.map
        (epoch.tableAt (i / epoch.sizes.batchNum + 1)) := by
    have all := synced.updates updates current (epoch.updates i).length
    rw [tableDuring, List.take_length] at all
    rw [all, Gpu.updates_node, ← start]
    rfl
  obtain ⟨loaded, host⟩ := last.trigger hasNext
  rw [memoryInfo_eq updates current.hasBlock last.nodeMap rows, ← opens] at loaded
  refine ⟨_, loaded, ?_, ?_⟩
  · rw [loaded.nodeMap, start, opens]
    exact nextGpu_memory updates hasNext last rows synced.host
  · rw [opens, host, BufferState.updates, synced.host]
    rfl

/-- The run keeps the buffer in step with the reference table. -/
theorem RootUpdates.synced (updates : epoch.RootUpdates) {i : Nat} (batch : epoch.HasBatch i) :
    ∃ gpu, epoch.Synced i (epoch.started i) gpu := by
  refine epoch.started_induction (motive := fun i state => ∃ gpu, epoch.Synced i state gpu)
    ⟨_, epoch.synced_first⟩ ?_ ?_ batch
  · rintro i later same ⟨gpu, synced⟩
    exact ⟨_, synced.inside updates (later.mono (Nat.le_succ i)) same⟩
  · rintro i later opens ⟨gpu, synced⟩
    exact synced.next updates later opens

/-- After `analyze` or `prefetch_after` of a block, and after each further update in
the block, the rows of all nodes of the map are those of the reference table. -/
theorem memory_eq_reference (updates : epoch.RootUpdates) {i : Nat} (batch : epoch.HasBatch i)
    (count : Nat) :
    ∃ gpu, (epoch.during i count).gpu = some gpu ∧
      gpu.node.map = epoch.nodeMap (i / epoch.sizes.batchNum) ∧
      gpu.memory = gpu.node.map.map (epoch.tableDuring i count) := by
  obtain ⟨gpu, synced⟩ := updates.synced batch
  have after := synced.loaded.updates ((epoch.updates i).take count)
  refine ⟨_, after.loaded, after.nodeMap, ?_⟩
  rw [synced.updates updates batch count, Gpu.updates_node]

end Rows

/-- Three blocks of two edges with one sampled neighbour for a root. Node 0 is away in
the second block, node 4 is a root of the second and absent from the third. -/
def recurringBlocks : Epoch Nat Nat Nat where
  config := ⟨false, false, false, true, false⟩
  param := ⟨1, 1, 0⟩
  sizes := ⟨2, 2, 6⟩
  src := [0, 0, 3, 3, 0, 6]
  dst := [1, 2, 4, 5, 3, 3]
  tables := ⟨[50, 51, 52, 53, 54, 55, 56], [60, 61, 62, 63, 64, 65], [], []⟩
  parts := fun
    | 0 =>
      { node := ⟨.ofList [0, 1, 2], ⟨[], [], []⟩, [50, 51, 52], []⟩
        edge := ⟨.ofList [0], ⟨[], [], []⟩, [60], []⟩
        valid := ⟨[], []⟩ }
    | 1 =>
      { node := ⟨.ofList [3, 4, 5], ⟨[], [], []⟩, [], []⟩
        edge := ⟨.ofList [2], ⟨[], [], []⟩, [], []⟩
        valid := ⟨[], []⟩ }
    | _ =>
      { node := ⟨.ofList [0, 2, 3, 5, 6], ⟨[], [], []⟩, [], []⟩
        edge := ⟨.ofList [1, 3, 4], ⟨[], [], []⟩, [], []⟩
        valid := ⟨[], []⟩ }
  neg := fun _ => ⟨.ofList [], .ofList []⟩
  updates := fun
    | 0 => [.memory [0, 1, 2] [[7], [8], [9]] [1, 0, 1]]
    | 1 => [.memory [3, 4, 5] [[4], [5], [6]] [3, 2, 3]]
    | _ => [.memory [0, 3, 6] [[1], [2], [3]] [4, 5, 5]]
  shareNodeNum := 5
  shareEdgeNum := 3
  sized := Nat.two_pos
  nonempty := Nat.succ_pos 5
  divides := Nat.dvd_refl 2
  nodeFits := fun block => by
    match block with
    | 0 => decide
    | 1 => decide
    | _ + 2 => exact of_decide_eq_true rfl
  edgeFits := fun block => by
    match block with
    | 0 => decide
    | 1 => decide
    | _ + 2 => exact of_decide_eq_true rfl

theorem recurringBlocks_rootUpdates : recurringBlocks.RootUpdates where
  rootsInMap := by
    intro block hasBlock
    have small : block * 2 < 6 := by
      simpa [HasBlock, BlockConfig.blockStart, BlockConfig.batchNum, recurringBlocks] using hasBlock
    obtain rfl | rfl | rfl : block = 0 ∨ block = 1 ∨ block = 2 := by omega
    · decide
    · decide
    · decide
  onRoots := by
    intro i batch
    have small : i * 2 < 6 := by simpa [HasBatch, recurringBlocks] using batch
    obtain rfl | rfl | rfl : i = 0 ∨ i = 1 ∨ i = 2 := by omega
    · decide
    · decide
    · decide

/-- In the last block node 0 has its row of the first one. -/
theorem memory_eq_reference_recurring :
    (∃ gpu, (recurringBlocks.during 2 0).gpu = some gpu ∧
      gpu.node.map = recurringBlocks.nodeMap (2 / recurringBlocks.sizes.batchNum) ∧
      gpu.memory = gpu.node.map.map (recurringBlocks.tableDuring 2 0)) ∧
    recurringBlocks.tableDuring 2 0 0 = ⟨[7], 1, [[0, 0]], [0]⟩ :=
  ⟨memory_eq_reference recurringBlocks_rootUpdates (by decide) 0, by decide⟩

end Epoch

end Dolphin.Buffer
