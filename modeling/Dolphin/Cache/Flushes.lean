import Mathlib.Data.List.Basic
import Dolphin.Cache.GenPartStream
import Dolphin.Store.StreamExtract

/-!
# Flushing the feature files

A closing window appends the id lists of its feature files to `node_his` and `edge_his`,
their maxima and their save paths to two more lists, and counts the bytes. When 4 GiB are
held at the end of a turn, and once after the loop, `stream_extract` writes the files of
all lists. The flush in the loop clears the lists and their maxima, but not the paths.
-/

namespace Dolphin.Cache

open Dolphin.Store

/-! ## Feature files -/

/-- The two sides of the plan. -/
inductive FeatSide where
  | node
  | edge
  deriving DecidableEq

/-- `node` or `edge`, as the file names have it. -/
def FeatSide.word : FeatSide → String
  | .node => "node"
  | .edge => "edge"

/-- The path appended with an id list: the features of a block, or those that a window
adds to the bucket cache. -/
inductive SavePath where
  | part (side : FeatSide) (block : Nat)
  | cache (side : FeatSide) (start : Nat)
  deriving DecidableEq

/-- The path under which a list is saved, with `_incre` or without. -/
inductive SavedPath where
  | part (side : FeatSide) (block : Nat) (incre : Bool)
  | cache (side : FeatSide) (start : Nat)
  deriving DecidableEq

/-- The text of a path in the directory of the parts. -/
def SavePath.text (dir : String) : SavePath → String
  | .part side block => dir ++ "/part" ++ toString block ++ "_" ++ side.word ++ "_feat.bin"
  | .cache side start => dir ++ "/cache_" ++ side.word ++ "_feat_" ++ toString start ++ ".pt"

/-- The text of a path that was saved. -/
def SavedPath.text (dir : String) : SavedPath → String
  | .part side block false => (SavePath.part side block).text dir
  | .part side block true =>
      dir ++ "/part" ++ toString block ++ "_" ++ side.word ++ "_feat_incre.bin"
  | .cache side start => (SavePath.cache side start).text dir

/-- The path that is loaded for an appended one: `part0_*_feat.pt` for the first block, what
`pre_fetch` opens for the others, and the cache file of a window. -/
def SavePath.loadPath (dir : String) : SavePath → String
  | .part side 0 => dir ++ "/part" ++ toString 0 ++ "_" ++ side.word ++ "_feat.pt"
  | .part side block => dir ++ "/part" ++ toString block ++ "_" ++ side.word ++ "_feat_incre.pt"
  | .cache side start => dir ++ "/cache_" ++ side.word ++ "_feat_" ++ toString start ++ ".bin"

/-- The path itself. -/
def SavePath.plain : SavePath → SavedPath
  | .part side block => .part side block false
  | .cache side start => .cache side start

/-- `cur_save_path.replace('.bin', '_incre.bin')`; the name of a cache file has no `.bin`
yet. -/
def SavePath.incre : SavePath → SavedPath
  | .part side block => .part side block true
  | .cache side start => .cache side start

/-- The file that `loadPath` names: the first block is opened under its plain name. -/
def SavePath.opened : SavePath → SavedPath
  | .part side block => .part side block (decide (0 < block))
  | .cache side start => .cache side start

/-! ## The lists of one side -/

/-- An id list and the path of its features. -/
abbrev Listed := List Nat × SavePath

/-- `his`, `his_max` and `save_paths` of one side. What was appended so far is kept for
comparison; `saved` are the lists that `stream_extract` wrote, with their paths. -/
structure His where
  ids : List (List Nat)
  max : List HisMax
  savePaths : List SavePath
  appended : List Listed
  saved : List (List Nat × SavedPath)

namespace His

/-- All lists are empty. -/
def empty : His := ⟨[], [], [], [], []⟩

/-- A list is appended, with its maximum and its path. -/
def append (his : His) (list : Listed) : His :=
  { his with
    ids := his.ids ++ [list.1]
    max := his.max ++ [HisMax.ofIds list.1]
    savePaths := his.savePaths ++ [list.2]
    appended := his.appended ++ [list] }

/-- `his.clear()` and `his_max.clear()`. -/
def clear (his : His) : His := { his with ids := [], max := [] }

/-- The lists and the paths under which `stream_extract` saves them: all but the first
get `_incre`. -/
def jobs (his : His) : List (List Nat × SavedPath) :=
  his.ids.zip
    (his.savePaths.zipIdx.map fun entry => if 0 < entry.2 then entry.1.incre else entry.1.plain)

/-- `stream_extract`; `none` where `max(his_max).item()` raises. Without a window nothing
is read or written. -/
def streamExtract (windowSize : Nat) (his : His) : Option His := do
  let largest ← pyMax his.max
  let _ ← largest.item
  some { his with saved := his.saved ++ if 0 < windowSize then his.jobs else [] }

end His

/-! ## The run -/

/-- What the flushes depend on. -/
structure FlushInput extends PlanInput where
  nodeWindowSize : Nat
  edgeWindowSize : Nat

/-- The variables of the flushes. -/
structure FlushState where
  node : His
  edge : His
  hisMemByte : Nat

/-- `his_mem_threshold`, 4 GiB. -/
def hisMemThreshold : Nat := 4 * 1024 ^ 3

/-- The lists of a closed window, in the order in which they are appended. -/
def windowLists (side : FeatSide) (files : SideFiles) (start : Nat) (bucketHis : List Nat) :
    List Listed :=
  (bucketHis.map fun block => ((files.partFeat block).getD [], SavePath.part side block)) ++
    [((files.cacheFeat start).getD [], .cache side start)]

/-- `numel() * element_size()`: the ids of a block are `int32`, those of a cache `int64`. -/
def listBytes (list : Listed) : Nat :=
  match list.2 with
  | .part _ _ => list.1.length * 4
  | .cache _ _ => list.1.length * 8

namespace FlushInput

variable (input : FlushInput)

/-- The turn of a block closes the open window. -/
def Closes (block : Nat) : Prop :=
  (input.after block).preThresholdNum < input.right block / threshold

instance (block : Nat) : Decidable (input.Closes block) := inferInstanceAs (Decidable (_ < _))

/-- The node lists of the window that is open before a turn, when it closes. -/
def nodeLists (block : Nat) : List Listed :=
  let closed := input.closeWindow (input.after block)
  windowLists .node closed.node.files closed.bucketCacheStart closed.bucketHis

/-- The edge lists; there are none without edge features. -/
def edgeLists (block : Nat) : List Listed :=
  let closed := input.closeWindow (input.after block)
  if input.hasEf then windowLists .edge closed.edge.files closed.bucketCacheStart closed.bucketHis
  else []

/-- The bytes of a closing window. -/
def windowBytes (block : Nat) : Nat :=
  ((input.edgeLists block).map listBytes).sum + ((input.nodeLists block).map listBytes).sum

/-- The window that is open before a turn is appended. -/
def appendWindow (block : Nat) (state : FlushState) : FlushState where
  node := (input.nodeLists block).foldl His.append state.node
  edge := (input.edgeLists block).foldl His.append state.edge
  hisMemByte := state.hisMemByte + input.windowBytes block

/-- The edge lists are extracted where there are edge features and a window. -/
def extractEdges (his : His) : Option His :=
  if input.hasEf = true ∧ 0 < input.edgeWindowSize then his.streamExtract input.edgeWindowSize
  else some his

/-- The flush in the loop. -/
def flush (state : FlushState) : Option FlushState := do
  let node ← state.node.streamExtract input.nodeWindowSize
  let edge ← input.extractEdges state.edge
  some ⟨node.clear, if input.hasEf then edge.clear else edge, 0⟩

/-- One turn of the loop. -/
def turn (block : Nat) (state : FlushState) : Option FlushState :=
  let appended := if input.Closes block then input.appendWindow block state else state
  if hisMemThreshold ≤ appended.hisMemByte then input.flush appended else some appended

/-- The variables after some turns. -/
def afterTurns : Nat → Option FlushState
  | 0 => some ⟨.empty, .empty, 0⟩
  | block + 1 => (afterTurns block).bind (input.turn block)

/-- `gen_part_stream`: all turns, the last window and the final flush. -/
def genFeatures : Option FlushState := do
  let state ← input.afterTurns input.blockNum
  let appended := input.appendWindow input.blockNum state
  let node ← appended.node.streamExtract input.nodeWindowSize
  let edge ← input.extractEdges appended.edge
  some { appended with node := node, edge := edge }

end FlushInput

/-- Every list that was appended is extracted once and under the path that is opened for
it. -/
def His.Kept (his : His) : Prop :=
  his.saved.Perm (his.appended.map fun list => (list.1, list.2.opened))

/-- The bookkeeping of both sides is right, and no file is written twice. -/
structure FlushState.Kept (ended : FlushState) : Prop where
  node : ended.node.Kept
  edge : ended.edge.Kept
  distinct : ((ended.node.saved ++ ended.edge.saved).map Prod.snd).Nodup

end Dolphin.Cache
