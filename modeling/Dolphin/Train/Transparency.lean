import Dolphin.Train.BatchUpdates
import Dolphin.Train.Datasets

/-!
# The model cannot tell the buffer from the tables

On the batches that `process_split` plans, the loop with the buffer gives the model in
every batch what the loop on tables for all nodes and edges gives it, whatever the model
answers: a block is in the buffer while its batches run, its maps have everything the
batches reach, and its rows are kept in step with the tables.
-/

namespace Dolphin.Train.Training

open Dolphin.Buffer Dolphin.Eid Dolphin.Graph Dolphin.Memory Dolphin.Sampler Dolphin.Semantics
  Dolphin.Tensor

variable {φ α : Type} {training : Training φ α}

/-! ## The edges of a block -/

/-- The edges of a block, by the bounds of the buffer. -/
theorem mem_block (training : Training φ α) {block e : Nat}
    (member : e ∈ blockEdges training.run.stream training.run.sizes.trainEdgeEnd block) :
    training.run.sizes.blockStart block ≤ e ∧ e < training.run.sizes.blockEnd block ∧
      e / 60000 = block := by
  rw [training.sized.blockStart, training.sized.blockEnd]
  rw [blockEdges_eq, List.mem_range'_1] at member
  omega

/-- There is a negative for each of them. -/
theorem negatives_length (training : Training φ α) (block : Nat) :
    (training.run.negatives block).length =
      training.run.sizes.blockEnd block - training.run.sizes.blockStart block := by
  have stop : training.run.sizes.blockEnd block ≤ training.run.stream.eid.length :=
    (Nat.min_le_left _ _).trans training.inStream
  rw [TrainRun.negatives, training.run.sampleLength, slice_length, training.run.stream.timeLength,
    Nat.min_eq_left stop]

/-- A column of the edge list between the bounds of a block. -/
theorem mem_blockSlice (training : Training φ α) {xs : List Nat}
    (length : xs.length = training.run.stream.eid.length) (block v : Nat) :
    v ∈ slice xs (training.run.sizes.blockStart block) (training.run.sizes.blockEnd block) ↔
      ∃ e, (training.run.sizes.blockStart block ≤ e ∧ e < training.run.sizes.blockEnd block) ∧
        xs.getD e default = v := by
  have stop : training.run.sizes.blockEnd block ≤ training.run.stream.eid.length :=
    (Nat.min_le_left _ _).trans training.inStream
  rw [slice_eq_map (length ▸ stop), List.mem_map]
  refine exists_congr fun e => and_congr_left fun _ => ?_
  rw [List.mem_range'_1]
  omega

/-- The roots of a block are the sources and destinations of its edges. -/
theorem mem_rootNodes (planned : training.Planned) {block v : Nat} :
    v ∈ (training.epoch planned).rootNodes block ↔
      ∃ e, (training.run.sizes.blockStart block ≤ e ∧ e < training.run.sizes.blockEnd block) ∧
        (training.run.stream.src.getD e default = v ∨
          training.run.stream.dst.getD e default = v) := by
  have source := training.mem_blockSlice training.run.stream.srcLength block v
  have destination := training.mem_blockSlice training.run.stream.dstLength block v
  rw [Epoch.rootNodes, mem_unique, List.mem_append]
  refine (or_congr source destination).trans ?_
  constructor
  · rintro (⟨e, inside, own⟩ | ⟨e, inside, own⟩)
    · exact ⟨e, inside, Or.inl own⟩
    · exact ⟨e, inside, Or.inr own⟩
  · rintro ⟨e, inside, own | own⟩
    · exact Or.inl ⟨e, inside, own⟩
    · exact Or.inr ⟨e, inside, own⟩

/-- The nodes of a batch are roots of its block. -/
theorem batch_rootNodes (planned : training.Planned) {block : Nat} {batch : List Nat}
    (edges : ∀ e ∈ batch, e ∈ blockEdges training.run.stream training.run.sizes.trainEdgeEnd block)
    {v : Nat} (member : v ∈ gather training.run.stream.src batch ++
      gather training.run.stream.dst batch) :
    v ∈ (training.epoch planned).rootNodes block := by
  rw [mem_rootNodes]
  rcases List.mem_append.mp member with source | destination
  · obtain ⟨e, inBatch, own⟩ := List.mem_map.mp source
    obtain ⟨low, high, -⟩ := training.mem_block (edges e inBatch)
    exact ⟨e, ⟨low, high⟩, Or.inl own⟩
  · obtain ⟨e, inBatch, own⟩ := List.mem_map.mp destination
    obtain ⟨low, high, -⟩ := training.mem_block (edges e inBatch)
    exact ⟨e, ⟨low, high⟩, Or.inr own⟩

/-! ## The maps of a block -/

/-- The node map of the buffer is the one of the block's samples. -/
theorem mem_nodeMap (planned : training.Planned) {block v : Nat} :
    v ∈ (training.epoch planned).nodeMap block ↔
      v ∈ partNodeMap training.g training.fanNums training.run.stream training.run.sizes block
        (training.run.negatives block) := by
  have pos := planned.nodes block
  change v ∈ mergeMap (training.parts block).node.posMap.ids (training.negInfo block).nodes.ids ↔ _
  rw [partNodeMap, mem_mergeMap, mem_mergeMap, pos]
  exact or_congr_right mem_unique

theorem mem_edgeMap (planned : training.Planned) {block e : Nat} :
    e ∈ (training.epoch planned).edgeMap block ↔
      e ∈ partEdgeMap training.g training.fanNums training.run.stream training.run.sizes block
        (training.run.negatives block) := by
  have pos := planned.edges block
  change e ∈ mergeMap (training.parts block).edge.posMap.ids (training.negInfo block).eids.ids ↔ _
  rw [partEdgeMap, mem_mergeMap, mem_mergeMap, pos]
  exact or_congr_right mem_unique

/-- The roots of a block are sampled with it. -/
theorem rootsInMaps (planned : training.Planned) : (training.epoch planned).RootsInMaps := by
  intro block _ v root
  obtain ⟨e, ⟨low, high⟩, own⟩ := (mem_rootNodes planned).mp root
  have covered := edgeRoots_covered training.divides training.inStream
    (training.negatives_length block) low high
  rw [mem_nodeMap]
  rcases own with rfl | rfl
  · exact root_mem_map training.layered (covered _ List.mem_cons_self)
  · exact root_mem_map training.layered
      (covered _ (List.mem_cons_of_mem _ List.mem_cons_self))

/-! ## The negatives of a batch -/

/-- The negatives at the positions of the edges in their block. -/
def drawn (training : Training φ α) (block : Nat) (batch : List Nat) : List Nat :=
  gather (training.run.negatives block) (batch.map (· % training.run.sizes.preSampleSize))

/-- Reading the negatives of a block succeeds for its edges. -/
theorem mapM_negatives (training : Training φ α) {block : Nat} {batch : List Nat}
    (edges : ∀ e ∈ batch, e ∈ blockEdges training.run.stream training.run.sizes.trainEdgeEnd block)
    {read : Nat → Option Nat} (own : ∀ e ∈ batch, read e =
      (training.run.negatives block)[e % training.run.sizes.preSampleSize]?) :
    batch.mapM read = some (training.drawn block batch) := by
  have calls : ∀ e ∈ batch, read e = pure ((training.run.negatives block).getD
      (e % training.run.sizes.preSampleSize) default) := by
    intro e member
    have room := training.sized.within (edges e member)
    rw [← training.sized.preSampleSize] at room
    rw [own e member, List.getD_eq_getElem?_getD, List.getElem?_eq_getElem room]
    rfl
  rw [mapM_eq_map calls, drawn, gather, List.map_map]
  rfl

/-- The negatives that a turn of the batch loop reads from the buffer. -/
theorem visit_negatives (training : Training φ α) {block : Nat} {batch : List Nat}
    (edges : ∀ e ∈ batch, e ∈ blockEdges training.run.stream training.run.sizes.trainEdgeEnd block)
    {blocks : BlockBuffer} {visit : TrainRun.Visit}
    (turn : training.run.trainBatch batch blocks = some visit)
    (inside : training.run.Inside block visit.buffer) :
    visit.negSampleNodes = training.drawn block batch := by
  obtain ⟨left, -, turn⟩ := Option.bind_eq_some_iff.mp turn
  obtain ⟨⟨loads, buffer⟩, -, turn⟩ := Option.bind_eq_some_iff.mp turn
  obtain ⟨neg, read, made⟩ := Option.bind_eq_some_iff.mp turn
  obtain rfl := Option.some.inj made
  have found := training.mapM_negatives edges fun e _ => congrArg (fun nodes : List Nat =>
    nodes[e % training.run.sizes.preSampleSize]?) inside.negatives
  exact Option.some.inj (read.symm.trans found)

/-! ## A turn -/

section Turn

/-- Two ways to read that agree on the ids of a block's maps. -/
structure Agree (epoch : Epoch φ (List α) α) (block : Nat) (reader other : Reader φ α) : Prop where
  nFeat : ∀ ids, (∀ v ∈ ids, v ∈ epoch.nodeMap block) → reader.nFeat ids = other.nFeat ids
  eFeat : ∀ ids, (∀ e ∈ ids, e ∈ epoch.edgeMap block) → reader.eFeat ids = other.eFeat ids
  mails : ∀ ids, (∀ v ∈ ids, v ∈ epoch.nodeMap block) → reader.mails ids = other.mails ids

/-- The inputs of blocks that lie in the maps. -/
theorem Agree.prepareInput {epoch : Epoch φ (List α) α} {block : Nat} {reader other : Reader φ α}
    (agree : Agree epoch block reader other) {first : List DglBlock} {mfgs : List (List DglBlock)}
    (isFirst : first ∈ mfgs)
    (inMaps : ∀ mfg ∈ mfgs, ∀ b ∈ mfg, (∀ v ∈ b.srcID, v ∈ epoch.nodeMap block) ∧
      ∀ e ∈ b.edgeID, e ∈ epoch.edgeMap block) :
    reader.prepareInput first mfgs = other.prepareInput first mfgs := by
  have h : (first.map fun b => reader.nFeat b.srcID) = first.map fun b => other.nFeat b.srcID :=
    List.map_congr_left fun b member => agree.nFeat _ (inMaps first isFirst b member).1
  have mails : (first.map fun b => reader.mails b.srcID) =
      first.map fun b => other.mails b.srcID :=
    List.map_congr_left fun b member => agree.mails _ (inMaps first isFirst b member).1
  have f : (mfgs.map fun mfg => mfg.map fun b =>
        if b.numSrcNodes > b.numDstNodes then some (reader.eFeat b.edgeID) else none) =
      mfgs.map fun mfg => mfg.map fun b =>
        if b.numSrcNodes > b.numDstNodes then some (other.eFeat b.edgeID) else none := by
    refine List.map_congr_left fun mfg ofMfgs => List.map_congr_left fun b member => ?_
    rw [agree.eFeat _ (inMaps mfg ofMfgs b member).2]
  simp only [Reader.prepareInput, h, mails, f]

/-- What the updates of a batch are given. -/
structure Waits (training : Training φ α) (block : Nat) (batch : List Nat)
    (waiting : Awaiting) : Prop where
  eid : waiting.eid = batch
  rootNodes : waiting.rootNodes = gather training.run.stream.src batch ++
    gather training.run.stream.dst batch ++ training.drawn block batch
  ts : waiting.ts = gather training.run.stream.time batch ++
    gather training.run.stream.time batch ++ gather training.run.stream.time batch
  nid : waiting.rootNodes <+: waiting.nid

/-- A batch up to the model: ways to read that agree give the same inputs. -/
theorem Agree.prepare (planned : training.Planned) {block : Nat} {reader other : Reader φ α}
    (agree : Agree (training.epoch planned) block reader other) {batch : List Nat}
    (edges : ∀ e ∈ batch,
      e ∈ blockEdges training.run.stream training.run.sizes.trainEdgeEnd block)
    (joined : Concatenates batch) :
    ∃ input waiting, training.prepare reader batch (training.drawn block batch) =
        some (input, waiting) ∧
      training.prepare other batch (training.drawn block batch) = some (input, waiting) ∧
      training.Waits block batch waiting := by
  let times := gather training.run.stream.time batch
  let rootNodes := gather training.run.stream.src batch ++ gather training.run.stream.dst batch ++
    training.drawn block batch
  have inBlock : ∀ e ∈ batch, training.run.sizes.blockStart block ≤ e ∧
      e < training.run.sizes.blockEnd block := fun e member =>
    ⟨(training.mem_block (edges e member)).1, (training.mem_block (edges e member)).2.1⟩
  have aligned : (times ++ times ++ times).length = rootNodes.length := by
    simp [times, rootNodes, drawn, gather]
  obtain ⟨rets, run, count, within⟩ := batch_within_maps training.sorted
    (training.layers batch) training.divides training.inStream (training.negatives_length block) inBlock
    aligned rfl
  rw [training.fanouts] at within
  have inMaps : ∀ mfg ∈ genMfgs rets, ∀ b ∈ mfg,
      (∀ v ∈ b.srcID, v ∈ (training.epoch planned).nodeMap block) ∧
      ∀ e ∈ b.edgeID, e ∈ (training.epoch planned).edgeMap block := by
    intro mfg ofMfgs b member
    obtain ⟨ret, ofRets, rfl⟩ := List.mem_map.mp (List.mem_reverse.mp ofMfgs)
    obtain rfl := List.mem_singleton.mp member
    obtain ⟨nodes, reached⟩ := within ret ofRets
    exact ⟨fun v known => (mem_nodeMap planned).mpr (nodes v known),
      fun e known => (mem_edgeMap planned).mpr (reached e known)⟩
  have nonempty : rets ≠ [] := by
    rintro rfl
    have none_ : (training.layers batch).map Prod.fst = [] := by
      rw [List.map_eq_nil_iff, ← List.length_eq_zero_iff, ← count]
      rfl
    exact training.layered ((training.fanouts batch).symm.trans none_)
  let deepest := rets.getLast nonempty
  have head : (genMfgs rets).head? = some [deepest.genBlock] := by
    rw [genMfgs, List.head?_reverse, List.getLast?_map, List.getLast?_eq_getLast_of_ne_nil nonempty]
    rfl
  have prepared (way : Reader φ α) :
      training.prepare way batch (training.drawn block batch) =
        some (way.prepareInput [deepest.genBlock] (genMfgs rets),
          ⟨batch, rootNodes, times ++ times ++ times, deepest.genBlock.srcID,
            deepest.genBlock.srcTs⟩) := by
    have sampled : sampleLayers training.g (training.layers batch)
        (gather training.run.stream.src batch ++ gather training.run.stream.dst batch ++
          training.drawn block batch)
        (gather training.run.stream.time batch ++ gather training.run.stream.time batch ++
          gather training.run.stream.time batch) = some rets := run
    simp only [Training.prepare, guard, if_pos joined, Option.pure_def, sampled,
      Option.bind_eq_bind, Option.bind_some, head, List.getLast?_singleton]
    rfl
  refine ⟨_, _, prepared reader, ?_, ⟨rfl, rfl, rfl, ?_⟩⟩
  · rw [prepared other, agree.prepareInput (List.mem_of_mem_head? head) inMaps]
  · exact sampleLayers_prefix run deepest (List.getLast_mem nonempty)

variable [Inhabited φ] [Inhabited α]

/-- The buffer and the tables are read alike. -/
theorem agree_of_tracks {planned : training.Planned} {block : Nat}
    {state : BufferState φ (List α) α} {gpu : Gpu φ (List α) α} {info : MemoryInfo α}
    {rows : Nat → NodeMem α}
    (tracks : (training.epoch planned).Tracks block state gpu info rows) :
    Agree (training.epoch planned) block (bufferReader gpu) (tableReader training.tables rows) where
  nFeat := fun _ inMap => tracks.nodeFeat inMap
  eFeat := fun _ inMap => tracks.edgeFeat inMap
  mails := fun _ inMap => tracks.getMails inMap

/-- The events of a batch. -/
def edgeBatch (training : Training φ α) (block : Nat) (batch : List Nat) : EdgeBatch α where
  src := gather training.run.stream.src batch
  dst := gather training.run.stream.dst batch
  neg := training.drawn block batch
  times := (gather training.run.stream.time batch).map training.timestamp
  negSamples := 1
  dstSized := by simp [gather]
  negSized := by simp [drawn, gather]
  timesSized := by simp [gather]

/-- While the batches of a block run, its rows are those of the tables. -/
structure InBlock (planned : training.Planned) (block : Nat) (loader : Loader φ α)
    (box : MailBox φ (List α) α) : Prop where
  tracks : ∃ gpu info rows,
    (training.epoch planned).Tracks block loader.buffer gpu info rows ∧
      box = freshBox training.param (.tables rows)
  blocks : training.run.Inside block loader.blocks

/-- The calls of a batch behind the model. -/
def calls (training : Training φ α) (block : Nat) (batch : List Nat) (waiting : Awaiting)
    (memEdgeFeats memory : List (List α)) : List (Update α) :=
  let events := training.edgeBatch block batch
  [mailboxCall training.param events memory memEdgeFeats,
    memoryCall events memory (waiting.nidTs.map training.timestamp)]

omit [Inhabited φ] in
/-- The updates of a batch are the same calls for the buffer and for the tables. -/
theorem Waits.updates {block : Nat} {batch : List Nat} {waiting : Awaiting}
    (waits : training.Waits block batch waiting) (single : training.param.mailboxSize ≤ 1)
    (memEdgeFeats memory : List (List α)) :
    MakesCalls training.param (gather training.run.stream.src batch ++
      gather training.run.stream.dst batch) (fun box : MailBox φ (List α) α =>
        training.updateMailBox box waiting memEdgeFeats memory)
      (training.calls block batch waiting memEdgeFeats memory) := by
  let events := training.edgeBatch block batch
  have rootNodes : waiting.rootNodes = events.rootNodes := waits.rootNodes
  have ts : waiting.ts.map training.timestamp = events.ts := by
    rw [waits.ts, EdgeBatch.ts]
    simp [events, edgeBatch]
  have makesMails := updateMailbox_makesCall (φ := φ) (ψ := List α) single events memory
    memEdgeFeats
  have makesMemories := updateMemory_makesCall (φ := φ) (ψ := List α) training.param events memory
    (rootNodes ▸ waits.nid) (waiting.nidTs.map training.timestamp)
  have both := makesMails.comp makesMemories
  simp only [updateMailBox, rootNodes, ts]
  exact both

/-- The observation of a turn from its parts. -/
theorem observe_buffered {planned : training.Planned} {loader : Loader φ α} {batch : List Nat}
    {left : Nat} {visit : TrainRun.Visit} {gpu : Gpu φ (List α) α} {input : ModelInput φ α}
    {waiting : Awaiting} (head : batch.head? = some left)
    (visited : training.run.trainBatch batch loader.blocks = some visit)
    (loaded : ((training.epoch planned).runBatch loader.buffer left).gpu = some gpu)
    (prepared : training.prepare (bufferReader gpu) batch visit.negSampleNodes =
      some (input, waiting)) :
    (training.buffered planned).observe loader batch =
      some (input, ⟨(training.epoch planned).runBatch loader.buffer left, visit.buffer⟩, gpu,
        waiting) := by
  simp only [buffered, head, visited, loaded, prepared, Option.bind_eq_bind, Option.bind_some]

theorem observe_plain {box : MailBox φ (List α) α} {batch neg : List Nat}
    {input : ModelInput φ α} {waiting : Awaiting}
    (negatives : (batch.mapM fun eid => (training.run.negatives (eid / 60000))[
      eid % training.run.sizes.preSampleSize]?) = some neg)
    (prepared : training.prepare (tableReader training.tables box.store.row) batch neg =
      some (input, waiting)) :
    training.plain.observe box batch = some (input, box, waiting) := by
  simp only [plain, negatives, prepared, Option.bind_eq_bind, Option.bind_some]

/-- A batch of the block that `run_batch` leaves in the buffer. -/
theorem turn (planned : training.Planned) (single : training.param.mailboxSize ≤ 1) {block : Nat}
    {batch : List Nat} {left : Nat} {loader : Loader φ α} {visit : TrainRun.Visit}
    {gpu : Gpu φ (List α) α} {info : MemoryInfo α} {rows : Nat → NodeMem α}
    (head : batch.head? = some left)
    (edges : ∀ e ∈ batch, e ∈ blockEdges training.run.stream training.run.sizes.trainEdgeEnd block)
    (joined : Concatenates batch)
    (visited : training.run.trainBatch batch loader.blocks = some visit)
    (inside : training.run.Inside block visit.buffer)
    (tracks : (training.epoch planned).Tracks block
      ((training.epoch planned).runBatch loader.buffer left) gpu info rows) :
    ∃ input waiting waiting',
      (training.buffered planned).observe loader batch = some (input, waiting) ∧
      training.plain.observe (freshBox training.param (.tables rows)) batch =
        some (input, waiting') ∧
      ∀ memory, InBlock planned block ((training.buffered planned).react waiting memory)
        (training.plain.react waiting' memory) := by
  obtain ⟨input, waiting, own, same, waits⟩ :=
    (agree_of_tracks tracks).prepare planned edges joined
  have negatives := training.visit_negatives edges visited inside
  have plainNegatives : (batch.mapM fun eid => (training.run.negatives (eid / 60000))[
      eid % training.run.sizes.preSampleSize]?) = some (training.drawn block batch) := by
    refine training.mapM_negatives edges fun e member => ?_
    rw [(training.mem_block (edges e member)).2.2]
  refine ⟨input, _, _, observe_buffered head visited tracks.loaded.loaded (negatives ▸ own),
    observe_plain plainNegatives same, fun memory => ?_⟩
  obtain ⟨low, high, -⟩ := training.mem_block (edges left (List.mem_of_mem_head? head))
  have hasBlock : (training.epoch planned).HasBlock block :=
    low.trans_lt (high.trans_le (Nat.min_le_left _ _))
  have memEdgeFeats : gpu.edge.getFeat waiting.eid =
      gather training.tables.edgeFeats waiting.eid := by
    refine tracks.edgeFeat fun e member => (mem_edgeMap planned).mpr ?_
    obtain ⟨first, last, -⟩ := training.mem_block (edges e (waits.eid ▸ member))
    exact mem_mergeMap.mpr (Or.inl (edge_mem_genPartMaps training.g training.fanNums
      training.divides training.inStream first last))
  have makes := waits.updates single (gather training.tables.edgeFeats waiting.eid) memory
  have onRoots : ∀ call ∈ training.calls block batch waiting
      (gather training.tables.edgeFeats waiting.eid) memory, ∀ v ∈ call.nid, v ∈ (training.epoch planned).rootNodes block :=
    fun call member v named => batch_rootNodes planned edges (makes.nid call member v named)
  have after := tracks.updates (rootsInMaps planned) hasBlock onRoots
  have written : bufferOf (training.updateMailBox (freshBox training.param (.buffer gpu)) waiting
      (gpu.edge.getFeat waiting.eid) memory).store = some (gpu.updates (training.calls block batch
        waiting (gather training.tables.edgeFeats waiting.eid) memory)) := by
    rw [memEdgeFeats, makes.buffer]
    rfl
  rw [← written] at after
  exact ⟨⟨_, _, _, after, makes.tables rows⟩, inside⟩

/-! ## The run -/

/-- The remaining blocks of the plan. -/
def Formed (training : Training φ α) (block : Nat) (blocks : List (List (List Nat))) : Prop :=
  ∀ i batches, blocks[i]? = some batches → BlockBatches (block + i) batches ∧
    batches.flatten.Perm
      (blockEdges training.run.stream training.run.sizes.trainEdgeEnd (block + i))

/-- The buffer is ready for a block: when its first batch comes, it is in step with the
tables. -/
structure AtOpening (planned : training.Planned) (block : Nat) (loader : Loader φ α)
    (box : MailBox φ (List α) α) : Prop where
  ready : training.run.Ready block loader.blocks
  tracks : (training.epoch planned).HasBlock block → ∃ gpu info rows,
    (training.epoch planned).Tracks block ((training.epoch planned).trigger loader.buffer)
      gpu info rows ∧ box = freshBox training.param (.tables rows)

/-- The run with the buffer and the one with the tables, with the batches that remain. -/
inductive Related (planned : training.Planned) (tasks : List (List Nat)) (loader : Loader φ α)
    (box : MailBox φ (List α) α) : Prop where
  | opening {block : Nat} {blocks : List (List (List Nat))} (remaining : tasks = blocks.flatten)
      (joined : ∀ batch ∈ tasks, Concatenates batch)
      (formed : training.Formed block blocks) (atOpening : AtOpening planned block loader box)
      (empty : loader.buffer.gpu = none)
  | inside {block : Nat} {rest : List (List Nat)} {blocks : List (List (List Nat))}
      (remaining : tasks = rest ++ blocks.flatten)
      (joined : ∀ batch ∈ tasks, Concatenates batch)
      (nonempty : ∀ batch ∈ rest, batch ≠ []) (later : ∀ batch ∈ rest, ¬Opens batch)
      (edges : ∀ batch ∈ rest, ∀ e ∈ batch,
        e ∈ blockEdges training.run.stream training.run.sizes.trainEdgeEnd block)
      (formed : training.Formed (block + 1) blocks) (inBlock : InBlock planned block loader box)

/-- Before the first batch. -/
theorem atOpening_start {windows : List Window} (planned : training.Planned)
    (stored : (training.epoch planned).FeaturesHeld windows) :
    AtOpening planned 0 (training.start planned) training.plainStart where
  ready := ⟨rfl, fun positive => absurd positive (Nat.lt_irrefl 0)⟩
  tracks := fun hasFirst => ⟨_, _, _, Epoch.tracks_first stored hasFirst, rfl⟩

/-- Behind the batches of a block. -/
theorem InBlock.atOpening {windows : List Window} {planned : training.Planned} {block : Nat}
    {loader : Loader φ α} {box : MailBox φ (List α) α}
    (inBlock : InBlock planned block loader box)
    (stored : (training.epoch planned).FeaturesHeld windows) :
    AtOpening planned (block + 1) loader box where
  ready := inBlock.blocks.next
  tracks := by
    intro hasNext
    obtain ⟨gpu, info, rows, tracks, own⟩ := inBlock.tracks
    obtain ⟨gpu', info', next⟩ := tracks.next stored (rootsInMaps planned) hasNext
    exact ⟨gpu', info', rows, next, own⟩

/-- The first batch of a block. -/
theorem AtOpening.turn {planned : training.Planned} (single : training.param.mailboxSize ≤ 1)
    {block : Nat} {loader : Loader φ α} {box : MailBox φ (List α) α}
    (atOpening : AtOpening planned block loader box) {task : List Nat} {tasks : List (List Nat)}
    {blocks : List (List (List Nat))} (remaining : task :: tasks = blocks.flatten)
    (joined : ∀ batch ∈ task :: tasks, Concatenates batch)
    (formed : training.Formed block blocks) :
    ∃ input waiting waiting', (training.buffered planned).observe loader task =
        some (input, waiting) ∧
      training.plain.observe box task = some (input, waiting') ∧
      ∀ memory, Related planned tasks ((training.buffered planned).react waiting memory)
        (training.plain.react waiting' memory) := by
  cases blocks with
  | nil => cases remaining
  | cons batches blocks =>
      obtain ⟨⟨⟨first, rest, rfl, opens, later⟩, nonempty, own⟩, perm⟩ := formed 0 batches rfl
      obtain ⟨rfl, rfl⟩ : task = first ∧ tasks = rest ++ blocks.flatten := by
        simpa using remaining
      have edges : ∀ batch ∈ task :: rest, ∀ e ∈ batch,
          e ∈ blockEdges training.run.stream training.run.sizes.trainEdgeEnd block :=
        fun batch member e inBatch => perm.mem_iff.mp (List.mem_flatten_of_mem member inBatch)
      obtain ⟨firstEdges, restEdges⟩ := List.forall_mem_cons.mp edges
      obtain ⟨firstJoined, joinedLater⟩ := List.forall_mem_cons.mp joined
      obtain ⟨left, head, multiple⟩ := id opens
      obtain ⟨low, high, -⟩ := training.mem_block (firstEdges left (List.mem_of_mem_head? head))
      obtain ⟨gpu, info, rows, tracks, rfl⟩ :=
        atOpening.tracks (low.trans_lt (high.trans_le (Nat.min_le_left _ _)))
      obtain ⟨visit, visited, inside, -⟩ := atOpening.ready.trainBatch training.sized opens
        firstEdges (own task List.mem_cons_self)
      have triggered : (training.epoch planned).runBatch loader.buffer left =
          (training.epoch planned).trigger loader.buffer := by
        have opened : left % training.run.sizes.preSampleSize = 0 := by
          rw [training.sized.preSampleSize]
          exact multiple
        exact if_pos opened
      rw [← triggered] at tracks
      obtain ⟨input, waiting, waiting', observed, same, next⟩ :=
        training.turn planned single head firstEdges firstJoined visited inside tracks
      refine ⟨input, waiting, waiting', observed, same, fun memory => ?_⟩
      refine .inside rfl joinedLater (List.forall_mem_cons.mp nonempty).2 later restEdges ?_ (next memory)
      intro i batches own
      rw [Nat.add_right_comm]
      exact formed (i + 1) batches own

/-- A later batch of a block. -/
theorem InBlock.turn {planned : training.Planned} (single : training.param.mailboxSize ≤ 1)
    {block : Nat} {loader : Loader φ α} {box : MailBox φ (List α) α}
    (inBlock : InBlock planned block loader box) {batch : List Nat} (joined : Concatenates batch)
    (nonempty : batch ≠ []) (later : ¬Opens batch)
    (edges : ∀ e ∈ batch,
      e ∈ blockEdges training.run.stream training.run.sizes.trainEdgeEnd block) :
    ∃ input waiting waiting', (training.buffered planned).observe loader batch =
        some (input, waiting) ∧
      training.plain.observe box batch = some (input, waiting') ∧
      ∀ memory, InBlock planned block ((training.buffered planned).react waiting memory)
        (training.plain.react waiting' memory) := by
  obtain ⟨left, head⟩ : ∃ left, batch.head? = some left :=
    ⟨_, List.head?_eq_some_head nonempty⟩
  obtain ⟨gpu, info, rows, tracks, rfl⟩ := inBlock.tracks
  obtain ⟨visit, visited, inside, -⟩ := inBlock.blocks.trainBatch training.sized nonempty later
    edges fun e member => (training.mem_block (edges e member)).2.2
  have stays : (training.epoch planned).runBatch loader.buffer left = loader.buffer := by
    have other : ¬left % training.run.sizes.preSampleSize = 0 := by
      rw [training.sized.preSampleSize]
      exact fun multiple => later ⟨left, head, multiple⟩
    exact if_neg other
  rw [← stays] at tracks
  exact training.turn planned single head edges joined visited inside tracks

/-- The two runs stay related. -/
theorem simulation {windows : List Window} (planned : training.Planned)
    (stored : (training.epoch planned).FeaturesHeld windows)
    (single : training.param.mailboxSize ≤ 1) :
    Responder.Simulation (training.buffered planned) training.plain (Related planned) where
  turn := by
    intro task tasks loader box related
    cases related with
    | opening remaining joined formed atOpening _ =>
        exact atOpening.turn single remaining joined formed
    | @inside block rest blocks remaining joined nonempty later edges formed inBlock =>
        cases rest with
        | nil => exact (inBlock.atOpening stored).turn single remaining joined formed
        | cons batch rest =>
            obtain ⟨rfl, rfl⟩ : task = batch ∧ tasks = rest ++ blocks.flatten := by
              simpa using remaining
            obtain ⟨taskJoined, othersJoined⟩ := List.forall_mem_cons.mp joined
            obtain ⟨filled, othersFilled⟩ := List.forall_mem_cons.mp nonempty
            obtain ⟨notFirst, othersLater⟩ := List.forall_mem_cons.mp later
            obtain ⟨hasEdges, othersEdges⟩ := List.forall_mem_cons.mp edges
            obtain ⟨input, waiting, waiting', observed, same, next⟩ :=
              inBlock.turn single taskJoined filled notFirst hasEdges
            exact ⟨input, waiting, waiting', observed, same, fun memory =>
              .inside rfl othersJoined othersFilled othersLater othersEdges formed (next memory)⟩

/-- Before the first batch of a plan of `process_split`. -/
theorem related_start {windows : List Window} (planned : training.Planned)
    (stored : (training.epoch planned).FeaturesHeld windows) {blocks : List (List (List Nat))}
    (formed : Blocks training.run.stream training.run.sizes.trainEdgeEnd blocks)
    (joined : ∀ batch ∈ blocks.flatten, Concatenates batch) :
    Related planned blocks.flatten (training.start planned) training.plainStart := by
  refine .opening rfl joined (fun i batches own => ?_) (atOpening_start planned stored) rfl
  rw [Nat.zero_add]
  exact ⟨formed.batches i batches own, formed.edges i batches own⟩

/-- The rows in the buffer are those of the tables. -/
theorem Related.memory {planned : training.Planned} {tasks : List (List Nat)}
    {loader : Loader φ α} {box : MailBox φ (List α) α} (related : Related planned tasks loader box)
    {gpu : Gpu φ (List α) α} (loaded : loader.buffer.gpu = some gpu) :
    gpu.memory = gpu.node.map.map box.store.row := by
  cases related with
  | opening _ _ _ _ empty =>
      rw [empty] at loaded
      cases loaded
  | inside _ _ _ _ _ _ inBlock =>
      obtain ⟨gpu', info, rows, tracks, rfl⟩ := inBlock.tracks
      obtain rfl := Option.some.inj (tracks.loaded.loaded.symm.trans loaded)
      exact tracks.memory

/-- On a plan of `process_split`, whatever the model answers, it is given the same inputs
in every batch by both loops, and where the run ends the rows in the buffer are those of the
tables. -/
def SameRuns (training : Training φ α) (planned : training.Planned) (plan : List (List Nat)) :
    Prop :=
  ∀ model : List (ModelInput φ α) → List (List α), ∃ inputs loader box,
    (training.buffered planned).run model [] plan (training.start planned) =
      some (inputs, loader) ∧
    training.plain.run model [] plan training.plainStart = some (inputs, box) ∧
    inputs.length = plan.length ∧
    ∀ gpu, loader.buffer.gpu = some gpu → gpu.memory = gpu.node.map.map box.store.row

theorem sameRuns {windows : List Window} (planned : training.Planned)
    (stored : (training.epoch planned).FeaturesHeld windows)
    (single : training.param.mailboxSize ≤ 1) {cpuCount : Nat} {threshold : Int}
    {plan : List (List Nat)}
    (split : processSplit cpuCount training.run.stream 0 training.run.sizes.trainEdgeEnd 60000
      threshold = some plan)
    (joined : ∀ batch ∈ plan, Concatenates batch) : SameRuns training planned plan := by
  intro model
  obtain ⟨blocks, rfl, formed⟩ := processSplit_blocks split
  obtain ⟨inputs, loader, box, own, same, count, last⟩ :=
    (simulation planned stored single).run model [] (related_start planned stored formed joined)
  exact ⟨inputs, loader, box, own, same, count, fun gpu => last.memory⟩

end Turn

/-! ## A run over three blocks -/

theorem threeBlocks_nodes : ∀ row ∈ threeBlocks, row.src < 5 ∧ row.dst < 5 := by
  intro row member
  obtain ⟨e, -, rfl⟩ := List.mem_map.mp member
  have even : e / 60000 % 2 < 2 := Nat.mod_lt _ Nat.two_pos
  exact ⟨by simp only [pairEdge]; omega, by simp only [pairEdge]; omega⟩

theorem threeBlocks_chronological : (threeBlocks.map CsvEdge.time).Pairwise (· ≤ ·) := by
  have times : threeBlocks.map CsvEdge.time = List.range 122000 :=
    (List.map_map ..).trans (List.map_id _)
  rw [times]
  exact List.pairwise_lt_range.imp Nat.le_of_lt

theorem threeBlocks_few : (occurrences true (fun _ => true) threeBlocks).length < 2 ^ 31 := by
  refine (few_occurrences ?_).2
  rw [threeBlocks_length]
  decide

/-- What `gen_graph.py` builds of them, with reverse entries. -/
theorem threeBlocks_indexes : (buildCsr stableSort true (fun _ => true) 5 threeBlocks).Indexes true
    (fun _ => true) threeBlocks :=
  buildCsr_indexes stableSort threeBlocks_nodes threeBlocks_few

/-- Their graph. -/
def threeBlocksGraph : StreamGraph threeBlocksRun.stream :=
  threeBlocks_indexes.streamGraph threeBlocks_chronological

theorem threeBlocksGraph_few : threeBlocksGraph.totaleid.length < 2 ^ 31 := by
  have entries := threeBlocks_indexes.eids.length_eq
  rw [List.length_map] at entries
  exact entries.trans_lt threeBlocks_few

/-- The edges of the three blocks, one layer, and the nodes below 5. In the third block the
nodes of the first one come back. -/
def threeBlocksData : Dataset where
  run := threeBlocksRun
  sized := threeBlocksRun_sized
  graph := threeBlocksGraph
  numNodes := 5
  src := (csvStream_nodes threeBlocks_nodes).1
  dst := (csvStream_nodes threeBlocks_nodes).2
  negatives := fun _ _ member => (List.eq_of_mem_replicate member).trans_lt (Nat.lt_succ_self 4)
  fanNums := [10]
  layered := List.cons_ne_nil _ _
  nonempty := Nat.succ_pos _
  inStream := threeBlocksRun_known

/-- Two windows of the caches: node 0 and edge 0 in the first, node 2 in the second. -/
def threeBlocksWindows : List Window := [⟨2, [0], [0]⟩, ⟨1, [2], []⟩]

/-- A training run with all features in memory. -/
def threeBlocksTraining : Training Nat Nat :=
  threeBlocksData.training ⟨true, false, false, true, false⟩ ⟨1, 1, 1⟩
    ⟨[50, 51, 52, 53, 54], (List.range 122000).map fun e => [e % 256], [], []⟩
    (threeBlocksData.nodeFiles threeBlocksWindows) (threeBlocksData.edgeFiles threeBlocksWindows)
    (fun _ => ⟨[], []⟩) id

theorem threeBlocksTraining_planned : threeBlocksTraining.Planned :=
  threeBlocksData.training_planned ..

theorem threeBlocksTraining_held :
    (threeBlocksTraining.epoch threeBlocksTraining_planned).FeaturesHeld threeBlocksWindows := by
  refine threeBlocksData.training_held (fun block begun => ?_) rfl rfl
  have start : block * 30 * 2000 < 122000 := begun
  change block < 3
  omega

/-- The plan has two edges or more in each batch. -/
theorem threeBlocks_plan : ∃ plan,
    processSplit 4 threeBlocksRun.stream 0 122000 60000 0 = some plan ∧
      ∀ batch ∈ plan, Concatenates batch := by
  obtain ⟨plan, split⟩ := processSplit_isSome 0 (show 2 ≤ 4 by decide) (Nat.succ_pos _)
    threeBlocksRun_known
  exact ⟨plan, split,
    processSplit_length_ne_one (Int.le_refl 0) threeBlocksRun_known (by decide) split⟩

end Dolphin.Train.Training
