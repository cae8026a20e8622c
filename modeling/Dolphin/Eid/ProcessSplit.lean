import Dolphin.Eid.AdaptiveSplit
import Dolphin.Semantics.Calls

/-!
# The blocks of the planner

`process_split` cuts the training edges into blocks and splits each block by itself.
Its list of batches is the batches of the blocks one after the other, and only the first
batch of a block begins with a multiple of the block size.
-/

namespace Dolphin.Eid

open Dolphin.Sampler Dolphin.Semantics
open scoped List

/-- The loop that collects the ends of the large batches. -/
def batchesArgs (currentPos endPos largeBatchSize : Nat) :
    Nat → Nat → Bool → Option (List (Nat × Nat))
  | 0, tempPos, _ => if tempPos < endPos then none else some []
  | fuel + 1, tempPos, first =>
      if tempPos < endPos then do
        let largeBatchEnd :=
          if first then
            min (min ((currentPos / largeBatchSize + 1) * largeBatchSize)
              (tempPos + largeBatchSize)) endPos
          else min (tempPos + largeBatchSize) endPos
        let args ← batchesArgs currentPos endPos largeBatchSize fuel largeBatchEnd false
        some ((tempPos, largeBatchEnd) :: args)
      else some []

/-- `process_single_batch`. -/
def processSingleBatch (stream : EdgeStream) (threshold : Int) (arg : Nat × Nat) :
    Option (List (List Nat)) :=
  adaptiveSplit stream threshold (slice stream.eid arg.1 arg.2)

/-- `process_split` on a machine with some number of processors. A pool without workers
raises, and so does a large batch that cannot be split. -/
def processSplit (cpuCount : Nat) (stream : EdgeStream)
    (currentPos endPos largeBatchSize : Nat) (maxThreshold : Int) : Option (List (List Nat)) := do
  let args ← batchesArgs currentPos endPos largeBatchSize endPos currentPos true
  if min (cpuCount - 1) args.length = 0 then none
  else
    let results ← args.mapM (processSingleBatch stream maxThreshold)
    some results.flatten

/-! ## One block -/

/-- `left % 60000 == 0` for the first edge of a batch. -/
def Opens (batch : List Nat) : Prop := ∃ left, batch.head? = some left ∧ left % 60000 = 0

/-- The batches of a block: only the first one opens it, and all edges are of the
block. -/
structure BlockBatches (block : Nat) (batches : List (List Nat)) : Prop where
  opened : ∃ first rest, batches = first :: rest ∧ Opens first ∧ ∀ batch ∈ rest, ¬Opens batch
  nonempty : ∀ batch ∈ batches, batch ≠ []
  inside : ∀ batch ∈ batches, ∀ eid ∈ batch, eid / 60000 = block

/-- A block has 60000 edges at most, so no other edge of it is a multiple of 60000. -/
theorem Batched.blockBatches {block count : Nat} {batches : List (List Nat)} (positive : 0 < count)
    (room : count ≤ 60000) (batched : Batched (List.range' (block * 60000) count) batches) :
    BlockBatches block batches := by
  have inside : ∀ batch ∈ batches, ∀ eid ∈ batch, eid / 60000 = block := by
    intro batch own eid member
    have known := batched.perm.mem_iff.mp (List.mem_flatten_of_mem own member)
    rw [List.mem_range'_1] at known
    omega
  have start : (List.range' (block * 60000) count).head? = some (block * 60000) := by
    obtain ⟨rest, rfl⟩ := Nat.exists_eq_add_of_lt positive
    rw [Nat.zero_add, List.range'_succ, List.head?_cons]
  have begins := batched.first
  rw [start] at begins
  cases batches with
  | nil => cases begins
  | cons first rest =>
      replace begins : first.head? = some (block * 60000) := begins
      have once : (first ++ rest.flatten).Nodup :=
        batched.perm.nodup_iff.mpr List.nodup_range'
      refine ⟨⟨first, rest, rfl, ⟨_, begins, Nat.mul_mod_left _ _⟩, ?_⟩, batched.nonempty, inside⟩
      rintro batch later ⟨left, head, multiple⟩
      have member := List.mem_of_mem_head? head
      have own := inside batch (List.mem_cons_of_mem _ later) left member
      obtain rfl : left = block * 60000 := by omega
      exact List.disjoint_of_nodup_append once (List.mem_of_mem_head? begins)
        (List.mem_flatten_of_mem later member)

/-! ## All blocks -/

/-- The number of blocks. -/
def blockCount (endPos : Nat) : Nat := (endPos + 59999) / 60000

/-- The ends of a block in the edge list. -/
def blockArg (endPos block : Nat) : Nat × Nat :=
  (block * 60000, min (block * 60000 + 60000) endPos)

/-- The loop collects one large batch for each block. -/
theorem batchesArgs_eq {endPos fuel block : Nat}
    (enough : endPos ≤ block * 60000 + fuel) (first : Bool) (start : first = true → block = 0) :
    batchesArgs 0 endPos 60000 fuel (min (block * 60000) endPos) first =
      some ((List.range' block (blockCount endPos - block)).map (blockArg endPos)) := by
  induction fuel generalizing block first with
  | zero =>
      have none_ : blockCount endPos - block = 0 := by
        rw [blockCount]
        omega
      rw [none_, batchesArgs, if_neg (by omega)]
      rfl
  | succ fuel ih =>
      by_cases more : block * 60000 < endPos
      · have spent : fuel + 1 ≤ 60000 + fuel := by clear enough; omega
        have enough' : endPos ≤ (block + 1) * 60000 + fuel := by
          rw [Nat.succ_mul, Nat.add_assoc]
          exact Nat.le_trans enough (Nat.add_le_add_left spent _)
        have count : blockCount endPos - block = blockCount endPos - (block + 1) + 1 := by
          rw [blockCount]
          omega
        have here : min (block * 60000) endPos = block * 60000 := by omega
        have next : (if first then min (min ((0 / 60000 + 1) * 60000) (block * 60000 + 60000)) endPos
            else min (block * 60000 + 60000) endPos) = min (block * 60000 + 60000) endPos := by
          cases first with
          | false => exact if_neg Bool.false_ne_true
          | true =>
              rw [start rfl, if_pos rfl]
              omega
        have rest := ih enough' false (by simp)
        rw [Nat.succ_mul] at rest
        rw [count, List.range'_succ, List.map_cons, batchesArgs, here, if_pos more]
        simp only [next, rest, blockArg, Option.bind_eq_bind, Option.bind_some]
      · have none_ : blockCount endPos - block = 0 := by
          rw [blockCount]
          omega
        rw [none_, batchesArgs, if_neg (by omega)]
        rfl

/-- The edges of a block. -/
def blockEdges (stream : EdgeStream) (endPos block : Nat) : List Nat :=
  slice stream.eid (block * 60000) (min (block * 60000 + 60000) endPos)

theorem blockEdges_eq (stream : EdgeStream) (endPos block : Nat) :
    blockEdges stream endPos block = List.range' (block * 60000)
      (min (min (block * 60000 + 60000) endPos) stream.eid.length - block * 60000) := by
  conv_lhs => rw [blockEdges, stream.eidRow]
  exact slice_range _ _ _

/-- The plan is the batches of its blocks, one block after the other. -/
structure Blocks (stream : EdgeStream) (endPos : Nat) (blocks : List (List (List Nat))) : Prop where
  length : blocks.length = blockCount endPos
  edges : ∀ block batches, blocks[block]? = some batches →
    batches.flatten ~ blockEdges stream endPos block
  batches : ∀ block batches, blocks[block]? = some batches → BlockBatches block batches

theorem processSplit_args {cpuCount endPos : Nat} {stream : EdgeStream} {maxThreshold : Int} :
    processSplit cpuCount stream 0 endPos 60000 maxThreshold =
      if min (cpuCount - 1) (blockCount endPos) = 0 then none
      else (((List.range (blockCount endPos)).map (blockArg endPos)).mapM
        (processSingleBatch stream maxThreshold)).map List.flatten := by
  have args := @batchesArgs_eq endPos endPos 0 (by omega) true (fun _ => rfl)
  rw [Nat.zero_mul, Nat.zero_min, Nat.sub_zero, ← List.range_eq_range'] at args
  rw [processSplit, args]
  simp only [Option.bind_eq_bind, Option.bind_some, List.length_map, List.length_range]
  congr 1
  cases ((List.range (blockCount endPos)).map (blockArg endPos)).mapM
    (processSingleBatch stream maxThreshold) <;> rfl

/-- A split large batch is a block. -/
theorem processSingleBatch_batched {stream : EdgeStream} {endPos block : Nat} {threshold : Int}
    {batches : List (List Nat)}
    (run : processSingleBatch stream threshold (blockArg endPos block) = some batches) :
    Batched (blockEdges stream endPos block) batches ∧ blockEdges stream endPos block ≠ [] := by
  rw [processSingleBatch, blockArg, ← blockEdges] at run
  by_cases empty : blockEdges stream endPos block = []
  · rw [empty, adaptiveSplit_nil] at run
    cases run
  · obtain ⟨other, same, batched⟩ := adaptiveSplit_batched stream threshold empty
    obtain rfl := Option.some.inj (same.symm.trans run)
    exact ⟨batched, empty⟩

/-- What `process_split` returns. -/
theorem processSplit_blocks {cpuCount endPos : Nat} {stream : EdgeStream} {maxThreshold : Int}
    {plan : List (List Nat)}
    (run : processSplit cpuCount stream 0 endPos 60000 maxThreshold = some plan) :
    ∃ blocks, plan = blocks.flatten ∧ Blocks stream endPos blocks := by
  rw [processSplit_args] at run
  split at run
  case isTrue => cases run
  case isFalse =>
      obtain ⟨blocks, calls, same⟩ := Option.map_eq_some_iff.mp run
      obtain ⟨length, each⟩ := mapM_some calls
      rw [List.length_map, List.length_range] at length
      have batched : ∀ block batches, blocks[block]? = some batches →
          Batched (blockEdges stream endPos block) batches ∧ blockEdges stream endPos block ≠ [] := by
        intro block batches own
        obtain ⟨arg, argOwn, call⟩ := each block batches own
        obtain ⟨inside, -⟩ := List.getElem?_eq_some_iff.mp own
        rw [List.getElem?_map, List.getElem?_range (length ▸ inside), Option.map_some] at argOwn
        obtain rfl := Option.some.inj argOwn
        exact processSingleBatch_batched call
      refine ⟨blocks, same.symm, length, ?_, ?_⟩
      · intro block batches own
        exact (batched block batches own).1.perm
      · intro block batches own
        obtain ⟨split, nonempty⟩ := batched block batches own
        rw [blockEdges_eq] at split nonempty
        refine split.blockBatches (Nat.pos_of_ne_zero fun none_ => nonempty ?_) (by omega)
        rw [none_, List.range'_zero]

/-- Training edges of the edge list are split wherever a pool has a worker. -/
theorem processSplit_isSome {cpuCount endPos : Nat} {stream : EdgeStream} (maxThreshold : Int)
    (worker : 2 ≤ cpuCount) (positive : 0 < endPos) (known : endPos ≤ stream.eid.length) :
    ∃ plan, processSplit cpuCount stream 0 endPos 60000 maxThreshold = some plan := by
  have some_ : ¬min (cpuCount - 1) (blockCount endPos) = 0 := by
    rw [blockCount]
    omega
  obtain ⟨results, calls⟩ : ∃ results, ((List.range (blockCount endPos)).map
      (blockArg endPos)).mapM (processSingleBatch stream maxThreshold) = some results := by
    apply mapM_isSome
    intro arg member
    obtain ⟨block, bound, rfl⟩ := List.mem_map.mp member
    have inside : block * 60000 < endPos := by
      have below := List.mem_range.mp bound
      rw [blockCount] at below
      omega
    have nonempty : blockEdges stream endPos block ≠ [] := by
      rw [blockEdges_eq]
      intro empty
      have length := congrArg List.length empty
      rw [List.length_range', List.length_nil] at length
      omega
    obtain ⟨batches, split, -⟩ := adaptiveSplit_batched stream maxThreshold nonempty
    exact ⟨batches, split⟩
  refine ⟨results.flatten, ?_⟩
  rw [processSplit_args, if_neg some_, calls]
  rfl

/-- Without a threshold a plan has no batch of one edge, unless the training edges leave one
behind their batches of 2000. -/
theorem processSplit_length_ne_one {cpuCount endPos : Nat} {stream : EdgeStream}
    {threshold : Int} (none_ : threshold ≤ 0) (known : endPos ≤ stream.eid.length)
    (more : endPos % 2000 ≠ 1) {plan : List (List Nat)}
    (run : processSplit cpuCount stream 0 endPos 60000 threshold = some plan) :
    ∀ batch ∈ plan, batch.length ≠ 1 := by
  rw [processSplit_args] at run
  split at run
  case isTrue => cases run
  case isFalse =>
      obtain ⟨blocks, calls, rfl⟩ := Option.map_eq_some_iff.mp run
      obtain ⟨length, each⟩ := mapM_some calls
      rw [List.length_map, List.length_range] at length
      intro batch member
      obtain ⟨batches, own, inBlock⟩ := List.mem_flatten.mp member
      obtain ⟨block, at_⟩ := List.mem_iff_getElem?.mp own
      obtain ⟨arg, argOwn, call⟩ := each block batches at_
      obtain ⟨inside, -⟩ := List.getElem?_eq_some_iff.mp at_
      rw [List.getElem?_map, List.getElem?_range (length ▸ inside), Option.map_some] at argOwn
      obtain rfl := Option.some.inj argOwn
      obtain ⟨eidResult, loop, last⟩ := Option.bind_eq_some_iff.mp call
      obtain ⟨_, -, same⟩ := Option.bind_eq_some_iff.mp last
      obtain rfl := Option.some.inj same
      refine adaptiveLoop_length_ne_one none_ ?_ loop batch inBlock
      change (blockEdges stream endPos block).length % 2000 ≠ 1
      rw [blockEdges_eq, List.length_range']
      omega

end Dolphin.Eid
