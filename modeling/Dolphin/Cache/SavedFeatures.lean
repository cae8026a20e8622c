import Dolphin.Cache.BucketCache
import Dolphin.Cache.FileNames
import Dolphin.Cache.WindowFiles
import Dolphin.Store.SavedRows

/-!
# The feature files of a run

`gen_part_stream` with the bytes that it reads and writes: every flush extracts the rows of
its lists from the feature files of the dataset into the directory of the parts. Where one
flush ends the run and a feature file fits into one window, the worker loads for each block
the rows of the ids that the plan names, and its caches hold the rows of the list with which
the block was planned.
-/

namespace Dolphin.Cache

open Dolphin.Store

/-! ## The run on the disk -/

/-- The rows of a feature file, each of `featLen` elements of `float32`. -/
structure FeatRows where
  featLen : Nat
  rows : List (List UInt8)
  width : 0 < featLen
  regular : ∀ row ∈ rows, row.length = featLen * DType.float32.itemsize

/-- The row of an id. -/
def FeatRows.row (feats : FeatRows) (id : Nat) : List UInt8 := feats.rows.getD id []

/-- The features of a dataset and the paths of a run: the directory of the dataset and what
follows `part-` in the directory of the parts. -/
structure FeatData where
  path : String
  label : String
  node : FeatRows
  edge : FeatRows

namespace FeatData

variable (data : FeatData)

/-- `{path}/part-{batch_size}-{fan_nums}`. -/
def dir : String := data.path ++ "/part-" ++ data.label

/-- The features of a side. -/
def feats : FeatSide → FeatRows
  | .node => data.node
  | .edge => data.edge

/-- `node_feat_path`, `edge_feat_path`. -/
def featPath (side : FeatSide) : String := data.path ++ "/" ++ side.word ++ "_features.bin"

/-- `stream_extract` for the lists of a side. -/
def extract (side : FeatSide) (windowSize : Nat) (his : His) (store : BinStore) :
    Option BinStore :=
  streamExtract store (data.featPath side) (his.savePaths.map (SavePath.text data.dir)) windowSize
    his.ids his.max (data.feats side).featLen .float32

end FeatData

namespace FlushInput

variable (input : FlushInput) (data : FeatData)

/-- Both extractions of a flush. -/
def extractFiles (state : FlushState) (store : BinStore) : Option BinStore := do
  let saved ← data.extract .node input.nodeWindowSize state.node store
  if input.hasEf = true ∧ 0 < input.edgeWindowSize then
    data.extract .edge input.edgeWindowSize state.edge saved
  else some saved

/-- One turn of the loop and what it writes. -/
def turnFiles (block : Nat) (run : FlushState × BinStore) : Option (FlushState × BinStore) :=
  let appended := if input.Closes block then input.appendWindow block run.1 else run.1
  if hisMemThreshold ≤ appended.hisMemByte then do
    let saved ← input.extractFiles data appended run.2
    let flushed ← input.flush appended
    some (flushed, saved)
  else some (appended, run.2)

/-- The lists and the disk after some turns. -/
def filesAfter (store : BinStore) : Nat → Option (FlushState × BinStore)
  | 0 => some (⟨.empty, .empty, 0⟩, store)
  | block + 1 => (filesAfter store block).bind (input.turnFiles data block)

/-- The disk after `gen_part_stream`. -/
def saveFeatures (store : BinStore) : Option BinStore := do
  let run ← input.filesAfter data store input.blockNum
  input.extractFiles data (input.appendWindow input.blockNum run.1) run.2

/-! ## The worker -/

/-- The caches when a block is decoded: those of the first window, with the files of each
later window loaded at its first block. -/
def loadedCaches (worker : BinStore) :
    Nat → Option (CacheState (List UInt8) (List UInt8))
  | 0 => do
      let node := input.genPartStream.node.files
      let edge := input.genPartStream.edge.files
      let nodeFeat ← loadRows worker ((SavePath.cache .node 0).text data.dir)
      let nodeMap ← node.bucketCacheIdx 0
      let edgeFeat ← if input.hasEf then
          (loadRows worker ((SavePath.cache .edge 0).text data.dir)).map some
        else some none
      some ⟨nodeFeat, edgeFeat, nodeMap, edge.bucketCacheIdx 0⟩
  | block + 1 => do
      let node := input.genPartStream.node.files
      let edge := input.genPartStream.edge.files
      let cache ← loadedCaches worker block
      if (worker.files ((SavePath.cache .edge (block + 1)).loadPath data.dir)).isSome then do
        let eidMask ← edge.increMask (block + 1)
        let edgeIncre ← loadRows worker ((SavePath.cache .edge (block + 1)).loadPath data.dir)
        let edgeMap ← edge.bucketCacheIdx (block + 1)
        let edgeFeat ← cache.edgeFeat
        let nidMask ← node.increMask (block + 1)
        let nodeIncre ← loadRows worker ((SavePath.cache .node (block + 1)).loadPath data.dir)
        let nodeMap ← node.bucketCacheIdx (block + 1)
        some
          { nodeFeat := Tensor.maskAssign cache.nodeFeat nidMask nodeIncre
            edgeFeat := some (Tensor.maskAssign edgeFeat eidMask edgeIncre)
            nodeMap := nodeMap
            edgeMap := some edgeMap }
      else some cache

end FlushInput

/-! ## Both sides of a plan -/

namespace FlushInput

variable (input : FlushInput)

/-- The ids of a block. -/
def uni : FeatSide → Nat → List Nat
  | .node => input.nidUni
  | .edge => input.eidUni

/-- The ids chosen for a window. -/
def chosen : FeatSide → Nat → List Nat
  | .node => input.cacheNid
  | .edge => input.cacheEid

/-- `node_window_size`, `edge_window_size`. -/
def windowSize : FeatSide → Nat
  | .node => input.nodeWindowSize
  | .edge => input.edgeWindowSize

/-- The lists that a turn appends when it closes a window. -/
def lists : FeatSide → Nat → List Listed
  | .node => input.nodeLists
  | .edge => input.edgeLists

/-- The files of the plan. -/
def planned : FeatSide → SideFiles
  | .node => input.genPartStream.node.files
  | .edge => input.genPartStream.edge.files

/-- One flush ends the run, the feature files fit into a window, and there are no cache files
of an earlier run. -/
structure Extractable (data : FeatData) (store : BinStore) : Prop where
  plain : '.' ∉ data.dir.toList
  hasEf : input.hasEf = true
  blocks : 0 < input.blockNum
  first : input.right 0 < threshold
  below : input.bytesBefore input.blockNum < hisMemThreshold
  known : ∀ side block, ∀ x ∈ input.uni side block, x < (data.feats side).rows.length
  knownCache : ∀ side w, ∀ x ∈ input.chosen side w, x < (data.feats side).rows.length
  occupied : ∀ side, input.uni side 0 ≠ []
  window : ∀ side, (data.feats side).rows.length ≤ input.windowSize side
  files : ∀ side, store.files (data.featPath side) = some (data.feats side).rows.flatten
  fresh : ∀ start, store.files ((SavePath.cache .edge start).loadPath data.dir) = none

/-- What the worker has of a block when it decodes it: the rows of its own files, and caches
with the rows of the lists that it was planned with. -/
structure Served (data : FeatData) (worker : BinStore) (block : Nat) : Prop where
  part : ∀ side, ∃ ids, (input.planned side).partFeat block = some ids ∧
    loadRows worker ((SavePath.part side block).loadPath data.dir) =
      some (ids.map (data.feats side).row)
  caches : ∃ nids eids, input.genPartStream.node.files.plannedWith block = some nids ∧
    input.genPartStream.edge.files.plannedWith block = some eids ∧
    input.loadedCaches data worker block =
      some ⟨nids.map data.node.row, some (eids.map data.edge.row), nids, some eids⟩

end FlushInput

/-! ## Names -/

theorem loadPath_cache (dir : String) (side : FeatSide) (start : Nat) :
    (SavePath.cache side start).loadPath dir = stem dir (.cache side start) ++ ".bin" :=
  rfl

/-- The feature files lie outside of the directory of the parts. -/
theorem FeatData.featPath_ne (data : FeatData) (side : FeatSide) (path : SavedPath) :
    data.featPath side ≠ stem data.dir path ++ ".bin" := by
  intro same
  have letters := congrArg String.toList same
  have inDir : ∃ rest, (stem data.dir path).toList = data.dir.toList ++ rest := by
    cases path with
    | part side block incre => exact ⟨_, stem_part data.dir side block incre⟩
    | cache side start => exact ⟨_, stem_cache data.dir side start⟩
  obtain ⟨rest, own⟩ := inDir
  rw [String.toList_append, own] at letters
  cases side <;> simp [featPath, dir, FeatSide.word] at letters

/-- A file of the disk belongs to one list. -/
theorem name_injective {dir : String} {path other : SavePath}
    (same : stem dir path.opened ++ ".bin" = stem dir other.opened ++ ".bin") : path = other := by
  have letters := congrArg String.toList same
  simp only [String.toList_append, List.append_cancel_right_eq] at letters
  exact opened_injective (stem_injective dir (String.toList_inj.mp letters))

/-! ## One side -/

/-- All lists of one side are extracted, and nothing else is written. -/
theorem FeatData.extract_saved {data : FeatData} {side : FeatSide} {lists : List Listed}
    {windowSize : Nat} {store : BinStore} (plain : '.' ∉ data.dir.toList) (occupied : lists ≠ [])
    (jobs : (His.holding lists).jobs = lists.map fun list => (list.1, list.2.opened))
    (distinct : (lists.map Prod.snd).Nodup) (found : ¬MaxIsInt (lists.map Prod.fst))
    (bounded : ∀ list ∈ lists, ∀ x ∈ list.1, x < (data.feats side).rows.length)
    (window : (data.feats side).rows.length ≤ windowSize)
    (file : store.files (data.featPath side) = some (data.feats side).rows.flatten) :
    ∃ saved, data.extract side windowSize (.holding lists) store = some saved ∧ saved.Flushed ∧
      (∀ list ∈ lists, RowsSaved saved (list.2.opened.text data.dir) .float32
        (data.feats side).featLen (list.1.map (data.feats side).row)) ∧
      ∀ path, path ∉ (lists.map fun list => stem data.dir list.2.opened ++ ".bin") →
        saved.AgreeAt store path := by
  have written : (lists.map Prod.fst).zip
      (curSavePaths ((lists.map Prod.snd).map (SavePath.text data.dir))) =
        lists.map fun list => (list.1, list.2.opened.text data.dir) := by
    have texts := (His.holding lists).jobs_text plain
    rw [jobs, List.map_map] at texts
    exact texts
  have names : ((lists.map fun list => (list.1, list.2.opened.text data.dir)).map
      fun job => binPath job.2) = lists.map fun list => stem data.dir list.2.opened ++ ".bin" := by
    rw [List.map_map]
    exact List.map_congr_left fun list _ => SavedPath.binPath_text plain list.2.opened
  have apart : (lists.map fun list => stem data.dir list.2.opened ++ ".bin").Nodup := by
    have mapped := distinct.map (fun _ _ => @name_injective data.dir _ _)
    rwa [List.map_map] at mapped
  have outside : data.featPath side ∉ lists.map fun list => stem data.dir list.2.opened ++ ".bin" := by
    intro member
    obtain ⟨list, -, same⟩ := List.mem_map.mp member
    exact data.featPath_ne side list.2.opened same.symm
  have paths : (data.featPath side :: ((lists.map Prod.fst).zip
      (curSavePaths ((lists.map Prod.snd).map (SavePath.text data.dir)))).map
        fun job => binPath job.2).Nodup := by
    rw [written, names]
    exact List.nodup_cons.mpr ⟨outside, apart⟩
  have inside : ∀ ids ∈ lists.map Prod.fst, ∀ x ∈ ids, x < (data.feats side).rows.length := by
    intro ids member
    obtain ⟨list, held, rfl⟩ := List.mem_map.mp member
    exact bounded list held
  obtain ⟨saved, run, flushed, rows, others⟩ := streamExtract_saved (data.feats side).width
    (mt List.map_eq_nil_iff.mp occupied) found paths inside window (data.feats side).regular file
  rw [written] at rows others
  refine ⟨saved, run, flushed, fun list member => ?_, fun path other => others path (names ▸ other)⟩
  exact rows _ (List.mem_map_of_mem (f := fun list => (list.1, list.2.opened.text data.dir)) member)

namespace FlushInput

variable {input : FlushInput} {data : FeatData}

/-- The first list of a run is that of its first block. -/
theorem Shape.head {side : FeatSide} {lists : Nat → List Listed}
    (shape : input.Shape side lists) (late : ¬input.Closes 0) (positive : 0 < input.blockNum) :
    ∃ ids rest, input.all lists = (ids, .part side 0) :: rest := by
  obtain ⟨blocks, -, start⟩ := input.bucketHis_eq input.blockNum
  obtain ⟨files, own⟩ := shape input.blockNum
  have ordered := (shape.before late input.blockNum).window files
    (Nat.sub_pos_of_lt (start positive))
  rw [← blocks, ← own] at ordered
  rcases ordered.first with ⟨none_, -⟩ | first
  · exact absurd none_ shape.all_ne_nil
  · exact first

/-- The largest id is found when the first block has an id. -/
theorem Shape.found {side : FeatSide} {lists : Nat → List Listed}
    (shape : input.Shape side lists) (late : ¬input.Closes 0) (positive : 0 < input.blockNum)
    {ids : List Nat} (listed : (ids, .part side 0) ∈ input.all lists) (some_ : ids ≠ []) :
    ¬MaxIsInt ((input.all lists).map Prod.fst) := by
  obtain ⟨first, rest, all⟩ := shape.head late positive
  have distinct := (shape.jobs late).2
  rw [all] at listed distinct ⊢
  rw [List.map_cons, List.nodup_cons] at distinct
  rcases List.mem_cons.mp listed with same | later
  · rw [← (Prod.mk.inj same).1]
    rintro ⟨head, -⟩
    exact some_ (by simpa using head)
  · exact absurd (List.mem_map_of_mem later) distinct.1

/-! ## Both sides -/

/-- Nothing is written before the run ends. -/
theorem filesAfter_unflushed {store : BinStore} {block : Nat}
    (below : input.bytesBefore block < hisMemThreshold) :
    input.filesAfter data store block =
      some (⟨.holding (input.before input.nodeLists block),
        .holding (input.before input.edgeLists block), input.bytesBefore block⟩, store) := by
  induction block with
  | zero => rfl
  | succ block ih =>
      have bound : input.bytesBefore block < hisMemThreshold :=
        Nat.lt_of_le_of_lt (Nat.le_add_right _ _) below
      rw [filesAfter, ih bound, Option.bind_some, turnFiles]
      by_cases closes : input.Closes block
      · rw [bytesBefore, if_pos closes] at below
        simp only [if_pos closes, appendWindow, foldl_append_holding,
          if_neg (Nat.not_le_of_lt below), before, bytesBefore]
      · simp only [if_neg closes, if_neg (Nat.not_le_of_lt bound), before, bytesBefore,
          List.append_nil, Nat.add_zero]

/-- One flush extracts all lists. -/
theorem saveFeatures_unflushed (data : FeatData) (store : BinStore)
    (below : input.bytesBefore input.blockNum < hisMemThreshold) :
    ∃ bytes, input.saveFeatures data store = input.extractFiles data
      ⟨.holding (input.all input.nodeLists), .holding (input.all input.edgeLists), bytes⟩ store := by
  refine ⟨input.bytesBefore input.blockNum + input.windowBytes input.blockNum, ?_⟩
  rw [saveFeatures, filesAfter_unflushed below]
  simp only [Option.bind_eq_bind, Option.bind_some, appendWindow, foldl_append_holding, all]

namespace Extractable

variable {store : BinStore}

theorem shape (ready : input.Extractable data store) (side : FeatSide) :
    input.Shape side (input.lists side) := by
  cases side with
  | node => exact shape_node
  | edge => exact shape_edge ready.hasEf

theorem listed (ready : input.Extractable data store) (side : FeatSide) :
    FilesListed side (data.feats side).rows.length (input.all (input.lists side))
      (input.planned side) := by
  have known := ready.known side
  have knownCache := ready.knownCache side
  cases side with
  | node => exact nodeFiles_listed known knownCache
  | edge => exact edgeFiles_listed ready.hasEf known knownCache

/-- Every block is planned. -/
theorem blocksPlanned (ready : input.Extractable data store) (side : FeatSide) :
    ∃ state : Side, state.files = input.planned side ∧
      BlocksPlanned (input.uni side) input.blockNum state := by
  obtain ⟨counts, total, closed⟩ := input.genPartStream_closedWindows
  have blocks := fun chosen => (BlocksPlanned.initial (input.uni side)).planWindows
    (chosenWindows chosen counts)
  simp only [chosenWindows_blocks, Nat.zero_add, total] at blocks
  cases side with
  | node => exact ⟨_, rfl, closed.node ▸ blocks input.cacheNid⟩
  | edge => exact ⟨_, rfl, closed.edge ready.hasEf ▸ blocks input.cacheEid⟩

/-- The file of the first block has all its ids. -/
theorem firstPart (ready : input.Extractable data store) (side : FeatSide) :
    (input.planned side).partFeat 0 = some (input.uni side 0) := by
  obtain ⟨state, files, blocks⟩ := ready.blocksPlanned side
  exact files ▸ blocks.first ready.blocks

/-- Every block has a file. -/
theorem somePart (ready : input.Extractable data store) (side : FeatSide) {block : Nat}
    (bound : block < input.blockNum) : ∃ ids, (input.planned side).partFeat block = some ids := by
  cases block with
  | zero => exact ⟨_, ready.firstPart side⟩
  | succ block =>
      obtain ⟨state, files, blocks⟩ := ready.blocksPlanned side
      obtain ⟨cacheIdx, -, -, part⟩ := blocks.later block bound
      exact ⟨_, files ▸ part⟩

/-- Blocks that have files are blocks of the run. -/
theorem lt_blockNum (ready : input.Extractable data store) (side : FeatSide) {block : Nat}
    {ids : List Nat} (named : (input.planned side).partFeat block = some ids ∨
      (input.planned side).plannedWith block = some ids) : block < input.blockNum := by
  obtain ⟨counts, total, closed⟩ := input.genPartStream_closedWindows
  by_contra behind
  have late : ∀ chosen, 0 + ((chosenWindows chosen counts).map Prod.snd).sum ≤ block := by
    intro chosen
    rw [chosenWindows_blocks, total]
    omega
  have none_ : (input.planned side).partFeat block = none ∧
      (input.planned side).plannedWith block = none := by
    cases side with
    | node =>
        rw [planned, closed.node]
        exact planWindows_behind (late input.cacheNid)
    | edge =>
        rw [planned, closed.edge ready.hasEf]
        exact planWindows_behind (late input.cacheEid)
  rw [none_.1, none_.2] at named
  rcases named with own | own <;> cases own

/-- The lists of one side are extracted from any disk that still has its feature file. -/
theorem extract (ready : input.Extractable data store) (side : FeatSide) {earlier : BinStore}
    (file : earlier.files (data.featPath side) = some (data.feats side).rows.flatten) :
    ∃ saved, data.extract side (input.windowSize side)
        (.holding (input.all (input.lists side))) earlier = some saved ∧ saved.Flushed ∧
      (∀ list ∈ input.all (input.lists side), RowsSaved saved (list.2.opened.text data.dir)
        .float32 (data.feats side).featLen (list.1.map (data.feats side).row)) ∧
      ∀ path, path ∉ ((input.all (input.lists side)).map fun list =>
        stem data.dir list.2.opened ++ ".bin") → saved.AgreeAt earlier path := by
  have late := not_closes_iff.mpr ready.first
  have shape := ready.shape side
  have listed := ready.listed side
  obtain ⟨jobs, distinct⟩ := shape.jobs late
  have found := shape.found late ready.blocks (listed.part 0 _ (ready.firstPart side))
    (ready.occupied side)
  exact data.extract_saved ready.plain shape.all_ne_nil jobs distinct found listed.bounded
    (ready.window side) file

/-- What is on the disk after the run. -/
structure Saved (input : FlushInput) (data : FeatData) (saved : BinStore) : Prop where
  flushed : saved.Flushed
  rows : ∀ side, ∀ list ∈ input.all (input.lists side),
    RowsSaved saved (list.2.opened.text data.dir) .float32 (data.feats side).featLen
      (list.1.map (data.feats side).row)
  absent : ∀ start, (input.planned .edge).cacheFeat start = none →
    saved.files ((SavePath.cache .edge start).loadPath data.dir) = none

/-- The run succeeds, and all rows are on the disk. -/
theorem saved (ready : input.Extractable data store) :
    ∃ saved, input.saveFeatures data store = some saved ∧ Saved input data saved := by
  obtain ⟨bytes, run⟩ := saveFeatures_unflushed data store ready.below
  have nodeSides := (ready.shape .node).sides
  have edgeSides := (ready.shape .edge).sides
  have window : 0 < input.edgeWindowSize := by
    obtain ⟨e, member⟩ := List.exists_mem_of_ne_nil _ (ready.occupied .edge)
    exact ((Nat.zero_le e).trans_lt (ready.known .edge 0 e member)).trans_le (ready.window .edge)
  obtain ⟨middle, node, -, nodeRows, nodeOthers⟩ := ready.extract .node (ready.files .node)
  -- the node lists leave the edge features and the edge lists the node files
  have file : middle.files (data.featPath .edge) = some (data.feats .edge).rows.flatten := by
    rw [(nodeOthers _ fun member => ?_).1, ready.files .edge]
    obtain ⟨list, -, same⟩ := List.mem_map.mp member
    exact data.featPath_ne .edge list.2.opened same.symm
  obtain ⟨saved, edge, flushed, edgeRows, edgeOthers⟩ := ready.extract .edge file
  refine ⟨saved, ?_, flushed, fun side list member => ?_, fun start none_ => ?_⟩
  · rw [run, extractFiles]
    simp only [Option.bind_eq_bind]
    rw [show data.extract .node input.nodeWindowSize (.holding (input.all input.nodeLists)) store =
      some middle from node, Option.bind_some, if_pos ⟨ready.hasEf, window⟩]
    exact edge
  · cases side with
    | node =>
        refine (nodeRows list member).of_agree (edgeOthers _ fun named => ?_)
        rw [SavedPath.binPath_text ready.plain] at named
        obtain ⟨other, ofEdge, same⟩ := List.mem_map.mp named
        have sides := edgeSides other ofEdge
        rw [name_injective same, nodeSides list member] at sides
        cases sides
    | edge => exact edgeRows list member
  · have unnamed : ∀ side, ∀ list ∈ input.all (input.lists side),
        stem data.dir list.2.opened ++ ".bin" ≠ (SavePath.cache .edge start).loadPath data.dir := by
      intro side list member same
      have own : list.2 = .cache .edge start := name_injective same
      cases side with
      | node =>
          have sides := nodeSides list member
          rw [own] at sides
          cases sides
      | edge => exact (ready.listed .edge).caches list member start own none_
    have apart : ∀ side, (SavePath.cache .edge start).loadPath data.dir ∉
        (input.all (input.lists side)).map fun list => stem data.dir list.2.opened ++ ".bin" := by
      intro side named
      obtain ⟨list, member, same⟩ := List.mem_map.mp named
      exact unnamed side list member same
    rw [(edgeOthers _ (apart .edge)).1, (nodeOthers _ (apart .node)).1, ready.fresh]

/-! ## The worker -/

variable {worker disk : BinStore}

/-- The file of a list loads as the rows of its ids. -/
theorem Saved.loadRows (ready : input.Extractable data store) (saved : Saved input data disk)
    (same : SameDisk worker disk) {side : FeatSide} {list : Listed}
    (member : list ∈ input.all (input.lists side)) {path : String}
    (named : binPath path = binPath (list.2.opened.text data.dir)) :
    Store.loadRows worker path = some (list.1.map (data.feats side).row) := by
  obtain ⟨file, entry⟩ := saved.rows side list member
  refine same.loadRows saved.flushed (data.feats side).width
    ⟨by rw [named, file], by rw [named, entry]⟩ fun row inRows => ?_
  obtain ⟨x, inList, rfl⟩ := List.mem_map.mp inRows
  have bound := (ready.listed side).bounded list member x inList
  refine (data.feats side).regular _ ?_
  rw [FeatRows.row, List.getD_eq_getElem?_getD, List.getElem?_eq_getElem bound, Option.getD_some]
  exact List.getElem_mem bound

/-- The part of a block. -/
theorem Saved.part (ready : input.Extractable data store) (saved : Saved input data disk)
    (same : SameDisk worker disk) {side : FeatSide} {block : Nat} {ids : List Nat}
    (named : (input.planned side).partFeat block = some ids) :
    Store.loadRows worker ((SavePath.part side block).loadPath data.dir) =
      some (ids.map (data.feats side).row) :=
  saved.loadRows ready same ((ready.listed side).part block ids named)
    (SavePath.binPath_loadPath ready.plain _)

/-- The cache file of a window, under both names. -/
theorem Saved.cache (ready : input.Extractable data store) (saved : Saved input data disk)
    (same : SameDisk worker disk) (side : FeatSide) (start : Nat) {ids : List Nat}
    (named : (input.planned side).cacheFeat start = some ids) :
    Store.loadRows worker ((SavePath.cache side start).text data.dir) =
        some (ids.map (data.feats side).row) ∧
      Store.loadRows worker ((SavePath.cache side start).loadPath data.dir) =
        some (ids.map (data.feats side).row) := by
  have member := (ready.listed side).cache start ids named
  exact ⟨saved.loadRows ready same member rfl,
    saved.loadRows ready same member (SavePath.binPath_loadPath ready.plain _)⟩

/-- The file by which a window is recognised. -/
theorem Saved.exists_iff (ready : input.Extractable data store) (saved : Saved input data disk)
    (same : SameDisk worker disk) (start : Nat) :
    (worker.files ((SavePath.cache .edge start).loadPath data.dir)).isSome =
      ((input.planned .edge).cacheFeat start).isSome := by
  rw [same.files]
  cases named : (input.planned .edge).cacheFeat start with
  | none => rw [saved.absent start named]; rfl
  | some ids =>
      have file := (saved.rows .edge _ ((ready.listed .edge).cache start ids named)).file
      rw [SavedPath.binPath_text ready.plain] at file
      rw [loadPath_cache]
      exact congrArg Option.isSome file

/-- The caches are those of the plan. -/
theorem Saved.loadedCaches (ready : input.Extractable data store) (saved : Saved input data disk)
    (same : SameDisk worker disk) {block : Nat} (bound : block < input.blockNum) :
    input.loadedCaches data worker block =
      input.cacheAt data.node.row data.edge.row block := by
  obtain ⟨node, edge⟩ := PlanInput.genPartStream_planned ready.first ready.blocks
  induction block with
  | zero =>
      obtain ⟨nodeFeat, -, -⟩ := node.opened 0 bound (Or.inl rfl)
      obtain ⟨edgeFeat, -, -⟩ := (edge ready.hasEf).opened 0 bound (Or.inl rfl)
      have nodeLoad := (saved.cache ready same .node 0 nodeFeat).1
      have edgeLoad := (saved.cache ready same .edge 0 edgeFeat).1
      simp only [FlushInput.loadedCaches, PlanInput.cacheAt, Cache.cacheAt, initBucketCache,
        ready.hasEf, if_true, nodeFeat, edgeFeat, nodeLoad, edgeLoad]
      rfl
  | succ block ih =>
      have before := ih (Nat.lt_of_succ_lt bound)
      rw [PlanInput.cacheAt] at before
      rw [FlushInput.loadedCaches, before, PlanInput.cacheAt, Cache.cacheAt]
      refine congrArg _ (funext fun cache => ?_)
      rw [saved.exists_iff ready same, refreshCache]
      cases named : input.genPartStream.edge.files.cacheFeat (block + 1) with
      | none => simp [planned, named]
      | some eids =>
          have edgeLoad := (saved.cache ready same .edge (block + 1) named).2
          simp only [planned, named, Option.isSome_some, if_true, edgeLoad]
          rcases input.windowOf_succ block with ⟨opens, -⟩ | ⟨stays, -⟩
          · obtain ⟨nodeFeat, -, -⟩ := node.opened _ bound opens
            have nodeLoad := (saved.cache ready same .node (block + 1) nodeFeat).2
            simp only [nodeFeat, nodeLoad]
            rfl
          · rw [((edge ready.hasEf).silent _ (Or.inr stays)).1] at named
            cases named

/-- The worker has the rows of every block. -/
theorem Saved.served (ready : input.Extractable data store) (saved : Saved input data disk)
    (same : SameDisk worker disk) {block : Nat} (bound : block < input.blockNum) :
    input.Served data worker block := by
  obtain ⟨node, edge⟩ := PlanInput.genPartStream_planned ready.first ready.blocks
  refine ⟨fun side => ?_, _, _, node.plannedWith block bound,
    (edge ready.hasEf).plannedWith block bound,
    (saved.loadedCaches ready same bound).trans
      (PlanInput.cacheAt_hasEf ready.first ready.hasEf _ _ bound)⟩
  obtain ⟨ids, named⟩ := ready.somePart side bound
  exact ⟨ids, named, saved.part ready same named⟩

end Extractable

/-- When one flush ends the run and the feature files fit into a window, the worker has for
every block the rows of the ids that the plan names: in the files of the block and in its
caches. -/
theorem saveFeatures_serves {store : BinStore} (ready : input.Extractable data store) :
    ∃ saved, input.saveFeatures data store = some saved ∧
      ∀ worker, SameDisk worker saved → ∀ block < input.blockNum,
        input.Served data worker block := by
  obtain ⟨saved, run, disk⟩ := ready.saved
  exact ⟨saved, run, fun worker same block bound => disk.served ready same bound⟩

end FlushInput

/-! ## A disk with the feature files -/

namespace FeatData

/-- The feature files and nothing else. -/
def disk (data : FeatData) : BinStore where
  files := fun path =>
    if path = data.featPath .node then some data.node.rows.flatten
    else if path = data.featPath .edge then some data.edge.rows.flatten
    else none
  json := fun _ => none
  confDic := fun _ => none
  confs := fun _ => none

variable (data : FeatData)

theorem disk_files (side : FeatSide) :
    data.disk.files (data.featPath side) = some (data.feats side).rows.flatten := by
  have apart : data.featPath .edge ≠ data.featPath .node := by
    intro same
    have letters := congrArg String.toList same
    simp [featPath, FeatSide.word] at letters
  cases side with
  | node => exact if_pos rfl
  | edge => exact (if_neg apart).trans (if_pos rfl)

theorem disk_fresh (side : FeatSide) (start : Nat) :
    data.disk.files ((SavePath.cache side start).loadPath data.dir) = none := by
  have apart := fun other => (data.featPath_ne other (.cache side start)).symm
  simp [disk, loadPath_cache, apart]

end FeatData

/-! ## Two windows -/

/-- Two blocks, the second of which passes the threshold: the caches are refreshed for it. -/
def twoBlocks : FlushInput where
  hasEf := true
  batchSize := 60000000
  edgeEnd := 100000000
  nidUni := fun _ => [0, 1, 2]
  eidUni := fun block => [block % 2, 2]
  cacheNid := fun w => [w % 2 + 1]
  cacheEid := fun w => [2 - w % 2]
  nodeWindowSize := 3
  edgeWindowSize := 3

theorem three_regular (byte : UInt8) :
    ∀ row ∈ [[byte, 0, 0, 0], [byte, 0, 0, 1], [byte, 0, 0, 2]],
      row.length = 1 * DType.float32.itemsize := by
  simp [DType.itemsize]

/-- Three rows of one element. -/
def threeRows (byte : UInt8) : FeatRows :=
  ⟨1, [[byte, 0, 0, 0], [byte, 0, 0, 1], [byte, 0, 0, 2]], Nat.one_pos, three_regular byte⟩

def twoData : FeatData := ⟨"d", "2-[10]", threeRows 5, threeRows 6⟩

theorem twoBlocks_extractable : twoBlocks.Extractable twoData twoData.disk where
  plain := by decide
  hasEf := rfl
  blocks := by decide
  first := by decide
  below := by decide
  known := by
    intro side block
    cases side <;> simp [FlushInput.uni, twoBlocks, FeatData.feats, twoData, threeRows]
    omega
  knownCache := by
    intro side w
    cases side <;> simp [FlushInput.chosen, twoBlocks, FeatData.feats, twoData, threeRows]
    · omega
    · omega
  occupied := fun side => by cases side <;> decide
  window := fun side => by cases side <;> decide
  files := twoData.disk_files
  fresh := twoData.disk_fresh .edge

theorem FlushInput.saveFeatures_serves_twoBlocks :
    ∃ saved, twoBlocks.saveFeatures twoData twoData.disk = some saved ∧
      ∀ worker, SameDisk worker saved → ∀ block < twoBlocks.blockNum,
        twoBlocks.Served twoData worker block :=
  FlushInput.saveFeatures_serves twoBlocks_extractable

end Dolphin.Cache
