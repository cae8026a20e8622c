import Dolphin.Eid.ProcessSplit
import Dolphin.Graph.BuiltStream

/-!
# The plan in the training loop

`run_batch` looks at the first edge of a batch only: a multiple of the block size makes
it load the next block, whichever that is. On the batches of `process_split` this keeps
`cur_block` one ahead of the block of the batch.
-/

namespace Dolphin.Eid

open Dolphin.Graph Dolphin.Sampler Dolphin.Semantics

/-- What a training run is started with. `sample` draws for a block as many negatives as
it is asked for. -/
structure TrainRun where
  stream : EdgeStream
  sizes : BlockConfig
  useAsync : Bool
  sample : Nat → Nat → List Nat
  sampleLength : ∀ block n, (sample block n).length = n

/-- The attributes of `Feat_buffer` that follow the blocks. `negInfo` is the block that
`neg_info` was drawn for; with `use_async` its request is under way. -/
structure BlockBuffer where
  curBlock : Nat
  negSampleNodes : List Nat
  negSampleNodesAsync : List Nat
  negInfo : Option Nat

/-- `reset`. -/
def BlockBuffer.reset : BlockBuffer := ⟨0, [], [], none⟩

/-- `np.concatenate` takes the columns of a batch: an index tensor of one entry takes a scalar
out of a column, for which it raises. -/
def Concatenates (batch : List Nat) : Prop := batch.length ≠ 1

instance (batch : List Nat) : Decidable (Concatenates batch) :=
  inferInstanceAs (Decidable (batch.length ≠ 1))

namespace TrainRun

variable (run : TrainRun)

/-- The negatives of a block: one for each of its edges. -/
def negatives (block : Nat) : List Nat :=
  run.sample block
    (slice run.stream.time (run.sizes.blockStart block) (run.sizes.blockEnd block)).length

/-- `neg_sample_nodes_async` after `pre_neg_sample`, which draws nothing for a block
without training edges. -/
def preNegSample (block : Nat) : Option (List Nat) :=
  if run.sizes.blockStart block < run.sizes.blockEnd block then some (run.negatives block)
  else none

/-- `load_part` and `analyze` for the first block, the reply of the worker and
`prefetch_after` for a later one: the block that is in the buffer now. -/
def loadBlock (left : Nat) (buffer : BlockBuffer) : Option (Nat × BlockBuffer) :=
  if buffer.curBlock = 0 then do
    let neg ← run.preNegSample (left / run.sizes.preSampleSize / run.sizes.batchNum)
    some (0, { buffer with negSampleNodesAsync := neg })
  else do
    let block ← buffer.negInfo
    some (if run.useAsync then (block, { buffer with negInfo := none })
      else (buffer.curBlock, buffer))

/-- `run_batch` in training: the block it loads, if any, and the buffer. -/
def runBatch (left : Nat) (buffer : BlockBuffer) : Option (Option Nat × BlockBuffer) :=
  if left % run.sizes.preSampleSize = 0 then do
    let (block, buffer) ← run.loadBlock left buffer
    let buffer := { buffer with negSampleNodes := buffer.negSampleNodesAsync }
    let buffer :=
      match run.preNegSample (buffer.curBlock + 1) with
      | some neg =>
          { buffer with negSampleNodesAsync := neg, negInfo := some (buffer.curBlock + 1) }
      | none => buffer
    some (some block, { buffer with curBlock := buffer.curBlock + 1 })
  else some (none, buffer)

/-- What one turn of the batch loop sees. -/
structure Visit where
  loads : Option Nat
  buffer : BlockBuffer
  negSampleNodes : List Nat

/-- The beginning of a turn of the batch loop, up to the negatives of the batch and before
they are joined to its columns. -/
def trainBatch (batch : List Nat) (buffer : BlockBuffer) : Option Visit := do
  let left ← batch.head?
  let (loads, buffer) ← run.runBatch left buffer
  let neg ← batch.mapM fun eid => buffer.negSampleNodes[eid % run.sizes.preSampleSize]?
  some ⟨loads, buffer, neg⟩

/-- The batch loop of an epoch, with the buffer where it ends. -/
def batchLoop : List (List Nat) → BlockBuffer → Option (List Visit × BlockBuffer)
  | [], buffer => some ([], buffer)
  | batch :: batches, buffer => do
      let visit ← run.trainBatch batch buffer
      let (visits, last) ← batchLoop batches visit.buffer
      some (visit :: visits, last)

end TrainRun

/-- The buffer is at the block of the batch: it has been loaded if and only if the batch
opens it, and it has a negative for each edge of the batch. -/
structure TrainRun.AlignedVisit (run : TrainRun) (batch : List Nat) (visit : TrainRun.Visit) :
    Prop where
  curBlock : ∀ eid ∈ batch, visit.buffer.curBlock = eid / 60000 + 1
  loads : ∀ block, visit.loads = some block ↔ Opens batch ∧ visit.buffer.curBlock = block + 1
  negatives : visit.buffer.negSampleNodes = run.negatives (visit.buffer.curBlock - 1)
  within : ∀ eid ∈ batch, eid % 60000 < visit.buffer.negSampleNodes.length

/-- The blocks of the run are those of the planner: `pre_sample_size` is 60000 and a
multiple of the batch size, as the part files of the buffer require. -/
structure TrainRun.Sized (run : TrainRun) : Prop where
  preSampleSize : run.sizes.preSampleSize = 60000
  batchSize : run.sizes.batchSize = 60000

namespace TrainRun

variable {run : TrainRun}

theorem Sized.blockStart (sized : run.Sized) (block : Nat) :
    run.sizes.blockStart block = block * 60000 := by
  rw [BlockConfig.blockStart, Nat.mul_assoc, Nat.mul_comm run.sizes.batchNum, ← sized.batchSize]
  rfl

theorem Sized.blockEnd (sized : run.Sized) (block : Nat) :
    run.sizes.blockEnd block = min run.sizes.trainEdgeEnd (block * 60000 + 60000) := by
  rw [BlockConfig.blockEnd, ← Nat.succ_mul, Nat.mul_assoc, Nat.mul_comm run.sizes.batchNum,
    ← Nat.succ_mul, ← sized.batchSize]
  rfl

/-- There is a negative for each edge of a block. -/
theorem Sized.negatives_length (sized : run.Sized) (block : Nat) :
    (run.negatives block).length = (blockEdges run.stream run.sizes.trainEdgeEnd block).length := by
  rw [negatives, run.sampleLength, blockEdges, slice_length, slice_length, sized.blockStart,
    sized.blockEnd, run.stream.timeLength, Nat.min_comm run.sizes.trainEdgeEnd]

theorem Sized.preNegSample (sized : run.Sized) {block : Nat}
    (inside : block * 60000 < run.sizes.trainEdgeEnd) :
    run.preNegSample block = some (run.negatives block) := by
  rw [TrainRun.preNegSample, sized.blockStart, sized.blockEnd]
  exact if_pos (by omega)

/-- The buffer before the first batch of a block. -/
structure Ready (run : TrainRun) (block : Nat) (buffer : BlockBuffer) : Prop where
  curBlock : buffer.curBlock = block
  later : 0 < block → block * 60000 < run.sizes.trainEdgeEnd →
    buffer.negInfo = some block ∧ buffer.negSampleNodesAsync = run.negatives block

/-- The buffer in a block. -/
structure Inside (run : TrainRun) (block : Nat) (buffer : BlockBuffer) : Prop where
  next : run.Ready (block + 1) buffer
  negatives : buffer.negSampleNodes = run.negatives block

/-- The index of an edge is inside the negatives of its block. -/
theorem Sized.within (sized : run.Sized) {block eid : Nat}
    (member : eid ∈ blockEdges run.stream run.sizes.trainEdgeEnd block) :
    eid % 60000 < (run.negatives block).length := by
  rw [sized.negatives_length, blockEdges_eq, List.length_range']
  rw [blockEdges_eq, List.mem_range'_1] at member
  have own : eid / 60000 = block := by omega
  have position : eid = block * 60000 + eid % 60000 := by
    rw [← own, Nat.div_add_mod']
  omega

theorem Ready.loadBlock (sized : run.Sized) {block : Nat} {buffer : BlockBuffer}
    (ready : run.Ready block buffer) (inside : block * 60000 < run.sizes.trainEdgeEnd) :
    ∃ loaded, run.loadBlock (block * 60000) buffer = some (block, loaded) ∧
      loaded.curBlock = block ∧ loaded.negSampleNodesAsync = run.negatives block := by
  rw [TrainRun.loadBlock, ready.curBlock]
  rcases Nat.eq_zero_or_pos block with rfl | positive
  · have drawn := sized.preNegSample inside
    rw [if_pos rfl, Nat.zero_mul, Nat.zero_div, Nat.zero_div, drawn]
    exact ⟨_, rfl, rfl, rfl⟩
  · obtain ⟨info, async⟩ := ready.later positive inside
    rw [if_neg (Nat.ne_of_gt positive), info]
    cases run.useAsync with
    | false => exact ⟨buffer, rfl, ready.curBlock, async⟩
    | true => exact ⟨_, rfl, rfl, async⟩

/-- The first batch of a block loads it. -/
theorem Ready.runBatch (sized : run.Sized) {block : Nat} {buffer : BlockBuffer}
    (ready : run.Ready block buffer) (inside : block * 60000 < run.sizes.trainEdgeEnd) :
    ∃ loaded, run.runBatch (block * 60000) buffer = some (some block, loaded) ∧
      run.Inside block loaded := by
  obtain ⟨loaded, load, cur, async⟩ := ready.loadBlock sized inside
  have opens : block * 60000 % run.sizes.preSampleSize = 0 := by
    rw [sized.preSampleSize, Nat.mul_mod_left]
  rw [TrainRun.runBatch, if_pos opens, load]
  simp only [Option.bind_eq_bind, Option.bind_some, cur]
  by_cases more : (block + 1) * 60000 < run.sizes.trainEdgeEnd
  · rw [sized.preNegSample more]
    exact ⟨_, rfl, ⟨rfl, fun _ _ => ⟨rfl, rfl⟩⟩, async⟩
  · refine ⟨_, rfl, ⟨?_, fun _ later => absurd later more⟩, ?_⟩
    · cases run.preNegSample (block + 1) <;> rfl
    · cases run.preNegSample (block + 1) <;> exact async

/-- Another batch loads nothing. -/
theorem runBatch_other (sized : run.Sized) {left : Nat} (other : left % 60000 ≠ 0)
    (buffer : BlockBuffer) : run.runBatch left buffer = some (none, buffer) := by
  rw [TrainRun.runBatch, sized.preSampleSize, if_neg other]

/-- In its block a batch finds its negatives. -/
theorem Inside.neg (sized : run.Sized) {block : Nat} {buffer : BlockBuffer}
    (inside : run.Inside block buffer) {batch : List Nat}
    (edges : ∀ eid ∈ batch, eid ∈ blockEdges run.stream run.sizes.trainEdgeEnd block) :
    ∃ neg, batch.mapM (fun eid => buffer.negSampleNodes[eid % run.sizes.preSampleSize]?) =
      some neg := by
  apply mapM_isSome
  intro eid member
  rw [sized.preSampleSize, inside.negatives]
  exact ⟨_, List.getElem?_eq_getElem (sized.within (edges eid member))⟩

/-- A batch of the block the buffer is in. -/
theorem Inside.aligned (sized : run.Sized) {block : Nat} {buffer : BlockBuffer}
    (inside : run.Inside block buffer) {batch : List Nat} {loads : Option Nat} {neg : List Nat}
    (edges : ∀ eid ∈ batch, eid ∈ blockEdges run.stream run.sizes.trainEdgeEnd block)
    (own : ∀ eid ∈ batch, eid / 60000 = block)
    (loading : ∀ other, loads = some other ↔ Opens batch ∧ block = other) :
    run.AlignedVisit batch ⟨loads, buffer, neg⟩ where
  curBlock := by
    intro eid member
    rw [inside.next.curBlock, own eid member]
  loads := by
    intro other
    rw [loading, inside.next.curBlock, Nat.succ_inj]
  negatives := by
    rw [inside.next.curBlock]
    exact inside.negatives
  within := by
    intro eid member
    rw [inside.negatives]
    exact sized.within (edges eid member)

/-- A turn of the batch loop from its parts. -/
theorem trainBatch_eq {batch neg : List Nat} {left : Nat} {loads : Option Nat}
    {buffer loaded : BlockBuffer} (head : batch.head? = some left)
    (load : run.runBatch left buffer = some (loads, loaded))
    (found : (batch.mapM fun eid => loaded.negSampleNodes[eid % run.sizes.preSampleSize]?) =
      some neg) :
    run.trainBatch batch buffer = some ⟨loads, loaded, neg⟩ := by
  simp only [TrainRun.trainBatch, head, load, found, Option.bind_eq_bind, Option.bind_some]

/-- The first batch of a block. -/
theorem Ready.trainBatch (sized : run.Sized) {block : Nat} {buffer : BlockBuffer}
    (ready : run.Ready block buffer) {batch : List Nat} (opens : Opens batch)
    (edges : ∀ eid ∈ batch, eid ∈ blockEdges run.stream run.sizes.trainEdgeEnd block)
    (own : ∀ eid ∈ batch, eid / 60000 = block) :
    ∃ visit, run.trainBatch batch buffer = some visit ∧ run.Inside block visit.buffer ∧
      run.AlignedVisit batch visit := by
  obtain ⟨left, head, multiple⟩ := opens
  have member := List.mem_of_mem_head? head
  have start := own left member
  obtain rfl : left = block * 60000 := by omega
  have known : block * 60000 < run.sizes.trainEdgeEnd := by
    have bound := edges _ member
    rw [blockEdges_eq, List.mem_range'_1] at bound
    omega
  obtain ⟨loaded, load, inside⟩ := ready.runBatch sized known
  obtain ⟨neg, found⟩ := inside.neg sized edges
  refine ⟨⟨some block, loaded, neg⟩, trainBatch_eq head load found, inside,
    inside.aligned sized edges own ?_⟩
  · intro other
    rw [Option.some_inj]
    exact ⟨fun same => ⟨⟨_, head, multiple⟩, same⟩, fun both => both.2⟩

/-- A later batch of a block. -/
theorem Inside.trainBatch (sized : run.Sized) {block : Nat} {buffer : BlockBuffer}
    (inside : run.Inside block buffer) {batch : List Nat} (nonempty : batch ≠ [])
    (later : ¬Opens batch)
    (edges : ∀ eid ∈ batch, eid ∈ blockEdges run.stream run.sizes.trainEdgeEnd block)
    (own : ∀ eid ∈ batch, eid / 60000 = block) :
    ∃ visit, run.trainBatch batch buffer = some visit ∧ run.Inside block visit.buffer ∧
      run.AlignedVisit batch visit := by
  obtain ⟨left, head⟩ : ∃ left, batch.head? = some left :=
    ⟨_, List.head?_eq_some_head nonempty⟩
  have other : left % 60000 ≠ 0 := fun multiple => later ⟨left, head, multiple⟩
  obtain ⟨neg, found⟩ := inside.neg sized edges
  refine ⟨⟨none, buffer, neg⟩, trainBatch_eq head (runBatch_other sized other buffer) found,
    inside, inside.aligned sized edges own ?_⟩
  · intro other
    exact ⟨nofun, fun both => absurd both.1 later⟩

/-! ## The run -/

theorem batchLoop_cons {batch : List Nat} {batches : List (List Nat)} {buffer last : BlockBuffer}
    {visit : Visit} {visits : List Visit} (first : run.trainBatch batch buffer = some visit)
    (rest : run.batchLoop batches visit.buffer = some (visits, last)) :
    run.batchLoop (batch :: batches) buffer = some (visit :: visits, last) := by
  simp only [batchLoop, first, rest, Option.bind_eq_bind, Option.bind_some]

theorem batchLoop_append {early late : List (List Nat)} {buffer middle last : BlockBuffer}
    {visits rest : List Visit} (first : run.batchLoop early buffer = some (visits, middle))
    (second : run.batchLoop late middle = some (rest, last)) :
    run.batchLoop (early ++ late) buffer = some (visits ++ rest, last) := by
  induction early generalizing buffer visits with
  | nil =>
      obtain ⟨rfl, rfl⟩ : [] = visits ∧ buffer = middle := by simpa [batchLoop] using first
      exact second
  | cons batch early ih =>
      obtain ⟨visit, turn, first⟩ := Option.bind_eq_some_iff.mp first
      obtain ⟨⟨others, reached⟩, loop, same⟩ := Option.bind_eq_some_iff.mp first
      obtain ⟨rfl, rfl⟩ : visit :: others = visits ∧ reached = middle := by simpa using same
      exact batchLoop_cons turn (ih loop)

/-- The later batches of a block, one after the other. -/
theorem Inside.batchLoop (sized : run.Sized) {block : Nat} {batches : List (List Nat)}
    (nonempty : ∀ batch ∈ batches, batch ≠ []) (later : ∀ batch ∈ batches, ¬Opens batch)
    (edges : ∀ batch ∈ batches, ∀ eid ∈ batch,
      eid ∈ blockEdges run.stream run.sizes.trainEdgeEnd block)
    (own : ∀ batch ∈ batches, ∀ eid ∈ batch, eid / 60000 = block) {buffer : BlockBuffer}
    (inside : run.Inside block buffer) :
    ∃ visits last, run.batchLoop batches buffer = some (visits, last) ∧ run.Inside block last ∧
      List.Forall₂ run.AlignedVisit batches visits := by
  induction batches generalizing buffer with
  | nil => exact ⟨[], buffer, rfl, inside, .nil⟩
  | cons batch batches ih =>
      obtain ⟨filled, othersFilled⟩ := List.forall_mem_cons.mp nonempty
      obtain ⟨notFirst, othersLater⟩ := List.forall_mem_cons.mp later
      obtain ⟨hasEdges, othersEdges⟩ := List.forall_mem_cons.mp edges
      obtain ⟨owns, othersOwn⟩ := List.forall_mem_cons.mp own
      obtain ⟨visit, turn, stays, aligned⟩ := inside.trainBatch sized filled notFirst hasEdges owns
      obtain ⟨visits, last, loop, ends, rest⟩ :=
        ih othersFilled othersLater othersEdges othersOwn stays
      exact ⟨visit :: visits, last, batchLoop_cons turn loop, ends, .cons aligned rest⟩

/-- One block. -/
theorem Ready.batchLoop (sized : run.Sized) {block : Nat} {batches : List (List Nat)}
    (formed : BlockBatches block batches)
    (edges : batches.flatten.Perm (blockEdges run.stream run.sizes.trainEdgeEnd block))
    {buffer : BlockBuffer} (ready : run.Ready block buffer) :
    ∃ visits last, run.batchLoop batches buffer = some (visits, last) ∧
      run.Ready (block + 1) last ∧ List.Forall₂ run.AlignedVisit batches visits := by
  obtain ⟨⟨first, rest, rfl, opens, later⟩, nonempty, own⟩ := formed
  have known : ∀ batch ∈ first :: rest, ∀ eid ∈ batch,
      eid ∈ blockEdges run.stream run.sizes.trainEdgeEnd block :=
    fun batch member eid inBatch => edges.mem_iff.mp (List.mem_flatten_of_mem member inBatch)
  obtain ⟨firstKnown, restKnown⟩ := List.forall_mem_cons.mp known
  obtain ⟨firstOwn, restOwn⟩ := List.forall_mem_cons.mp own
  obtain ⟨visit, turn, inside, aligned⟩ := ready.trainBatch sized opens firstKnown firstOwn
  obtain ⟨visits, last, loop, ends, others⟩ := inside.batchLoop sized
    (List.forall_mem_cons.mp nonempty).2 later restKnown restOwn
  exact ⟨visit :: visits, last, batchLoop_cons turn loop, ends.next, .cons aligned others⟩

/-- The blocks from some block on. -/
theorem Ready.blocks (sized : run.Sized) {blocks : List (List (List Nat))} {block : Nat}
    (formed : ∀ i batches, blocks[i]? = some batches → BlockBatches (block + i) batches ∧
      batches.flatten.Perm (blockEdges run.stream run.sizes.trainEdgeEnd (block + i)))
    {buffer : BlockBuffer} (ready : run.Ready block buffer) :
    ∃ visits last, run.batchLoop blocks.flatten buffer = some (visits, last) ∧
      List.Forall₂ run.AlignedVisit blocks.flatten visits := by
  induction blocks generalizing block buffer with
  | nil => exact ⟨[], buffer, rfl, .nil⟩
  | cons batches blocks ih =>
      obtain ⟨own, edges⟩ := formed 0 batches rfl
      obtain ⟨visits, middle, loop, next, aligned⟩ := ready.batchLoop sized own edges
      have later : ∀ i batches, blocks[i]? = some batches → BlockBatches (block + 1 + i) batches ∧
          batches.flatten.Perm
            (blockEdges run.stream run.sizes.trainEdgeEnd (block + 1 + i)) := by
        intro i batches at_
        rw [Nat.add_right_comm]
        exact formed (i + 1) batches at_
      obtain ⟨others, last, rest, alignedRest⟩ := ih later next
      rw [List.flatten_cons]
      exact ⟨visits ++ others, last, batchLoop_append loop rest,
        List.rel_append aligned alignedRest⟩

end TrainRun

/-- The planner gives a plan wherever it has a worker and the training edges are in the
edge list. In every plan only the first batch of a block begins with a multiple of 60000,
and the batches up to the next such batch are of its block; so in the batch loop each
`run_batch` leaves `cur_block` one ahead of the block of its batch, a block is loaded where
its first batch starts, and there is a negative for every edge. -/
theorem plan_aligned {run : TrainRun} (sized : run.Sized) (cpuCount : Nat) (threshold : Int) :
    (2 ≤ cpuCount → 0 < run.sizes.trainEdgeEnd →
      run.sizes.trainEdgeEnd ≤ run.stream.eid.length →
      ∃ plan, processSplit cpuCount run.stream 0 run.sizes.trainEdgeEnd 60000 threshold =
        some plan) ∧
    ∀ plan, processSplit cpuCount run.stream 0 run.sizes.trainEdgeEnd 60000 threshold =
        some plan →
      (∃ blocks, plan = blocks.flatten ∧ Blocks run.stream run.sizes.trainEdgeEnd blocks) ∧
      ∃ visits last, run.batchLoop plan .reset = some (visits, last) ∧
        List.Forall₂ run.AlignedVisit plan visits := by
  refine ⟨processSplit_isSome threshold, ?_⟩
  intro plan split
  obtain ⟨blocks, rfl, formed⟩ := processSplit_blocks split
  refine ⟨⟨blocks, rfl, formed⟩, ?_⟩
  have start : run.Ready 0 .reset := ⟨rfl, fun positive => absurd positive (Nat.lt_irrefl 0)⟩
  refine start.blocks sized ?_
  intro i batches own
  rw [Nat.zero_add]
  exact ⟨formed.batches i batches own, formed.edges i batches own⟩

/-! ## Three blocks -/

/-- In every second block the nodes 0 and 1 meet, in the others the nodes 2 and 3. -/
def pairEdge (e : Nat) : CsvEdge Nat := ⟨e / 60000 % 2 * 2, e / 60000 % 2 * 2 + 1, e⟩

/-- The edges of three blocks, the last one of 2000. -/
def threeBlocks : List (CsvEdge Nat) := (List.range 122000).map pairEdge

theorem threeBlocks_length : threeBlocks.length = 122000 :=
  (List.length_map _).trans List.length_range

theorem length_fifthNodes (_ n : Nat) : (List.replicate n 4).length = n := List.length_replicate

/-- A run on them, with node 4 for every negative. -/
def threeBlocksRun : TrainRun where
  stream := csvStream threeBlocks
  sizes := ⟨60000, 2000, 122000⟩
  useAsync := true
  sample := fun _ n => List.replicate n 4
  sampleLength := length_fifthNodes

theorem threeBlocksRun_sized : threeBlocksRun.Sized := ⟨rfl, rfl⟩

theorem threeBlocksRun_length : threeBlocksRun.stream.eid.length = 122000 := by
  rw [threeBlocksRun, csvStream, List.length_range, threeBlocks_length]

theorem threeBlocksRun_known : 122000 ≤ threeBlocksRun.stream.eid.length :=
  Nat.le_of_eq threeBlocksRun_length.symm

theorem plan_aligned_threeBlocks :
    ∃ blocks visits last,
      processSplit 4 threeBlocksRun.stream 0 122000 60000 1 = some (List.flatten blocks) ∧
      blocks.length = 3 ∧ threeBlocksRun.batchLoop blocks.flatten .reset = some (visits, last) ∧
      List.Forall₂ threeBlocksRun.AlignedVisit blocks.flatten visits := by
  obtain ⟨planner, plans⟩ := plan_aligned threeBlocksRun_sized 4 1
  obtain ⟨plan, split⟩ := planner (by decide) (Nat.succ_pos _) threeBlocksRun_known
  obtain ⟨⟨blocks, rfl, formed⟩, visits, last, loop, aligned⟩ := plans plan split
  exact ⟨blocks, visits, last, split, formed.length, loop, aligned⟩

end Dolphin.Eid
