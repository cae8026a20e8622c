import Dolphin.Sampler.SamplerGPU
import Dolphin.Tensor.Sort

/-!
# The maps of a block

`gen_part_stream` samples all positive roots of a block at once, `pre_neg_sample`
all its negative roots. Nodes are taken from the last layer only, where every
earlier node is a root, and edges from all layers. A block's maps are the
positives and the negatives that are not among them.
-/

namespace Dolphin.Sampler

open Dolphin.Graph Dolphin.Tensor

/-- The edges of a dataset in file order. The column behind `df-eid` counts the
rows of the edge list. -/
structure EdgeStream where
  src : List Nat
  dst : List Nat
  time : List Nat
  eid : List Nat
  srcLength : src.length = eid.length
  dstLength : dst.length = eid.length
  timeLength : time.length = eid.length
  eidRow : eid = List.range eid.length

/-- `xs[left: right]`. -/
def slice {α : Type*} (xs : List α) (left right : Nat) : List α := (xs.take right).drop left

/-- The sizes a run is started with. -/
structure BlockConfig where
  preSampleSize : Nat
  trainBatchSize : Nat
  trainEdgeEnd : Nat

namespace BlockConfig

variable (config : BlockConfig)

/-- `batch_num`: the batches of a block. -/
def batchNum : Nat := config.preSampleSize / config.trainBatchSize

/-- `Feat_buffer.batch_size`: the edges of a block of the planner. -/
def batchSize : Nat := config.trainBatchSize * config.batchNum

/-- The first edge of a block. -/
def blockStart (block : Nat) : Nat := block * config.batchNum * config.trainBatchSize

/-- The end of a block's training edges. -/
def blockEnd (block : Nat) : Nat :=
  min config.trainEdgeEnd ((block * config.batchNum + config.batchNum) * config.trainBatchSize)

end BlockConfig

/-- The edge ids of some layers, added to those collected so far. -/
def collectEids (eidUni : List Nat) (rets : List SampleRet) : List Nat :=
  rets.foldl (fun eids ret => unique (unique (ret.out.map Neighbor.eid) ++ eids)) eidUni

/-- `torch.unique(torch.cat((src, root_nodes)))` of the last layer. -/
def lastNodes : List SampleRet → List Nat
  | [] => []
  | [ret] => unique (ret.out.map Neighbor.src ++ ret.roots.map Prod.fst)
  | _ :: rets => lastNodes rets

/-- The positive roots of a block in `gen_part_stream`. The block ends where the
edge list does, not with the training edges. -/
def posRoots (stream : EdgeStream) (config : BlockConfig) (block : Nat) : List Root :=
  let left := block * config.batchSize
  let right := min stream.eid.length ((block + 1) * config.batchSize)
  let times := slice stream.time left right
  (slice stream.src left right ++ slice stream.dst left right).zip (times ++ times)

/-- The positive maps of a block in `gen_part_stream`: its nodes and edges. -/
def genPartMaps (g : TemporalCsr) (fanNums : List Nat) (stream : EdgeStream)
    (config : BlockConfig) (block : Nat) : List Nat × List Nat :=
  let left := block * config.batchSize
  let right := min stream.eid.length ((block + 1) * config.batchSize)
  let rets := sampleLayer g fanNums (posRoots stream config block)
  (lastNodes rets, collectEids (slice stream.eid left right) rets)

/-- The negative roots of a block: the negative of every edge at the edge's time. -/
def negRoots (stream : EdgeStream) (config : BlockConfig) (block : Nat) (negNodes : List Nat) :
    List Root :=
  negNodes.zip (slice stream.time (config.blockStart block) (config.blockEnd block))

/-- `pre_neg_sample`: the nodes and edges of a block's negative roots. -/
def preNegSample (g : TemporalCsr) (fanNums : List Nat) (stream : EdgeStream)
    (config : BlockConfig) (block : Nat) (negNodes : List Nat) : List Nat × List Nat :=
  let rets := sampleLayer g fanNums (negRoots stream config block negNodes)
  (lastNodes rets, collectEids [] rets)

/-- A block's map: the positives and the negatives among which they are not, sorted. -/
def mergeMap (pos neg : List Nat) : List Nat :=
  sort (pos ++ maskSelect (isin neg pos true) neg)

/-- `part_node_map` of a block whose negatives are `negNodes`. -/
def partNodeMap (g : TemporalCsr) (fanNums : List Nat) (stream : EdgeStream)
    (config : BlockConfig) (block : Nat) (negNodes : List Nat) : List Nat :=
  mergeMap (genPartMaps g fanNums stream config block).1
    (preNegSample g fanNums stream config block negNodes).1

/-- `part_edge_map` of a block whose negatives are `negNodes`. -/
def partEdgeMap (g : TemporalCsr) (fanNums : List Nat) (stream : EdgeStream)
    (config : BlockConfig) (block : Nat) (negNodes : List Nat) : List Nat :=
  mergeMap (genPartMaps g fanNums stream config block).2
    (preNegSample g fanNums stream config block negNodes).2

/-- The roots of a training batch on the edges `ind`: sources, destinations and the
negatives at the edges' positions in the block. -/
def batchRoots (stream : EdgeStream) (config : BlockConfig) (negNodes ind : List Nat) :
    List Root :=
  let times := gather stream.time ind
  (gather stream.src ind ++ gather stream.dst ind ++
    gather negNodes (ind.map (· % config.preSampleSize))).zip (times ++ times ++ times)

/-! ## Membership -/

theorem mem_collectEids {eidUni : List Nat} {rets : List SampleRet} {eid : Nat} :
    eid ∈ collectEids eidUni rets ↔ eid ∈ eidUni ∨ ∃ ret ∈ rets, ∃ n ∈ ret.out, n.eid = eid := by
  unfold collectEids
  induction rets generalizing eidUni with
  | nil => simp
  | cons ret rets ih =>
      rw [List.foldl_cons, ih]
      simp only [mem_unique, List.mem_append, List.mem_map, List.mem_cons, exists_eq_or_imp]
      rw [or_assoc, or_left_comm]

theorem mem_mergeMap {pos neg : List Nat} {x : Nat} :
    x ∈ mergeMap pos neg ↔ x ∈ pos ∨ x ∈ neg := by
  rw [mergeMap, mem_sort, List.mem_append, maskSelect_isin, List.mem_filter]
  by_cases known : x ∈ pos <;> simp [known]

/-- A slice is a column over its positions. -/
theorem slice_eq_map {α : Type*} [Inhabited α] {xs : List α} {left right : Nat}
    (bound : right ≤ xs.length) :
    slice xs left right = (List.range' left (right - left)).map fun i => xs.getD i default := by
  apply List.ext_getElem
  · simp [slice, Nat.min_eq_left bound]
  · intro j sliced mapped
    have inside : left + j < xs.length := by
      simp [slice] at sliced
      omega
    simp [slice, List.getD_eq_getElem?_getD, inside]

/-- A slice of the edge ids is the range of its bounds. -/
theorem mem_slice_eid {stream : EdgeStream} {left right e : Nat}
    (bound : right ≤ stream.eid.length) :
    e ∈ slice stream.eid left right ↔ left ≤ e ∧ e < right := by
  have own : ∀ i, i < stream.eid.length → stream.eid.getD i default = i := by
    intro i inside
    rw [stream.eidRow]
    simp [List.getD_eq_getElem?_getD, inside]
  rw [slice_eq_map bound, List.mem_map]
  simp only [List.mem_range'_1]
  constructor
  · rintro ⟨i, inside, rfl⟩
    rw [own i (by omega)]
    omega
  · rintro ⟨low, high⟩
    exact ⟨e, by omega, own e (by omega)⟩

end Dolphin.Sampler
