import Dolphin.ValidEdge.Expiry

/-!
# The reads of a block from the valid edges

When nothing that a block samples has expired before it, the valid edges hold the features
of all its positive and negative edges.
-/

namespace Dolphin.ValidEdge

open Dolphin.Graph Dolphin.Sampler Dolphin.Tensor

variable {stream : EdgeStream} {g : StreamGraph stream} {config : BlockConfig}

/-- The second hops of a block are recent at the end of the block before it. -/
def HopsRecent (g : StreamGraph stream) (config : BlockConfig) (fanNums : List Nat) : Nat → Prop
  | 0 => True
  | block + 1 => SecondHopsRecent g config fanNums block

/-- The edges that have expired before a block. -/
def expiredBefore (g : StreamGraph stream) (config : BlockConfig) (block : Nat) : List Nat :=
  expiredBy ((datasetBlocks g.toTemporalCsr stream config.batchSize).take block)

/-- They are edges of the blocks before. -/
theorem expiredBefore_lt (sized : 0 < config.batchSize) {block : Nat}
    (begun : block * config.batchSize < stream.eid.length) {e : Nat}
    (expired : e ∈ expiredBefore g config block) : e < block * config.batchSize := by
  cases block with
  | zero => exact absurd expired List.not_mem_nil
  | succ block =>
      have before : block * config.batchSize < stream.eid.length :=
        lt_of_le_of_lt (Nat.mul_le_mul_right _ block.le_succ) begun
      have marked := (mem_expiredBy_take sized before e).mp expired
      exact marked.lt (rootsUpTo_before stream config block)

/-- What one or two layers reach from a block has not expired before it. -/
theorem reached_notMem_expiredBefore (sized : 0 < config.batchSize) {fanNums : List Nat}
    (layers : fanNums.length = 1 ∨ fanNums.length = 2) (fanouts : ∀ f ∈ fanNums, f ≤ 10)
    {block : Nat} (recent : HopsRecent g config fanNums block)
    {i : Nat} (inBlock : InBlock stream config block i) {node e : Nat}
    (reached : e ∈ reachedEids g.toTemporalCsr fanNums (node, stream.time.getD i 0)) :
    e ∉ expiredBefore g config block := by
  cases block with
  | zero => exact List.not_mem_nil
  | succ block =>
      have before : block * config.batchSize < stream.eid.length := by
        have low := inBlock.1
        have high := inBlock.2
        have less : block * config.batchSize ≤ (block + 1) * config.batchSize :=
          Nat.mul_le_mul_right _ block.le_succ
        omega
      rw [expiredBefore, mem_expiredBy_take sized before]
      exact reached_not_expired layers fanouts recent inBlock reached

/-- The edges that a block samples are edges up to the block that have not expired. -/
theorem sampled_live (sized : 0 < config.batchSize) {fanNums : List Nat}
    (layers : fanNums.length = 1 ∨ fanNums.length = 2) (fanouts : ∀ f ∈ fanNums, f ≤ 10)
    {block : Nat} (recent : HopsRecent g config fanNums block) {roots : List Root}
    (times : ∀ root ∈ roots, ∃ i, InBlock stream config block i ∧
      root.2 = stream.time.getD i 0) {e : Nat}
    (found : ∃ ret ∈ sampleLayer g.toTemporalCsr fanNums roots, ∃ n ∈ ret.out, n.eid = e) :
    e < min stream.eid.length ((block + 1) * config.batchSize) ∧
      e ∉ expiredBefore g config block := by
  obtain ⟨root, own, reached⟩ := mem_sampleLayer_eids.mp found
  obtain ⟨i, inBlock, time⟩ := times root own
  have known := reachedEids_lt (Nat.le_of_eq time) reached
  have same : root = (root.1, stream.time.getD i 0) := by rw [← time]
  rw [same] at reached
  exact ⟨Nat.lt_trans known inBlock.2,
    reached_notMem_expiredBefore sized layers fanouts recent inBlock reached⟩

/-- So are all edges in the block's maps. -/
theorem mapped_live (sized : 0 < config.batchSize)
    (inStream : config.trainEdgeEnd ≤ stream.eid.length) {fanNums : List Nat}
    (layers : fanNums.length = 1 ∨ fanNums.length = 2) (fanouts : ∀ f ∈ fanNums, f ≤ 10)
    {block : Nat} (begun : block * config.batchSize < stream.eid.length)
    (recent : HopsRecent g config fanNums block) {negNodes : List Nat} {e : Nat}
    (asked : e ∈ (genPartMaps g.toTemporalCsr fanNums stream config block).2 ∨
      e ∈ (preNegSample g.toTemporalCsr fanNums stream config block negNodes).2) :
    e < min stream.eid.length ((block + 1) * config.batchSize) ∧
      e ∉ expiredBefore g config block := by
  rcases asked with positive | negative
  · rcases mem_collectEids.mp positive with own | found
    · obtain ⟨low, high⟩ := (mem_slice_eid (Nat.min_le_left _ _)).mp own
      exact ⟨high, fun expired => absurd (expiredBefore_lt sized begun expired) (Nat.not_lt.mpr low)⟩
    · exact sampled_live sized layers fanouts recent (fun root => posRoots_time) found
  · rcases mem_collectEids.mp negative with none_ | found
    · exact absurd none_ List.not_mem_nil
    · exact sampled_live sized layers fanouts recent (fun root => negRoots_time inStream) found

variable {α : Type} [Inhabited α]

/-- After the files up to a block have been replayed, `get_ef_valid` returns the features of
the block's edges. -/
theorem replay_reads (sized : 0 < config.batchSize)
    (inStream : config.trainEdgeEnd ≤ stream.eid.length) {fanNums : List Nat}
    (layers : fanNums.length = 1 ∨ fanNums.length = 2) (fanouts : ∀ f ∈ fanNums, f ≤ 10)
    {block : Nat} (begun : block * config.batchSize < stream.eid.length)
    (recent : HopsRecent g config fanNums block) (fits : stream.eid.length ≤ unused)
    (searchable : SearchableRun g.indptr config.batchSize
      (datasetBlocks g.toTemporalCsr stream config.batchSize))
    {edgeFeatures : List α} (features : stream.eid.length ≤ edgeFeatures.length) {run : ExpireRun}
    (ran : genExpire g.indptr config.batchSize
      (datasetBlocks g.toTemporalCsr stream config.batchSize) = some run)
    (negNodes : List Nat) :
    ∃ valid, replay run.files edgeFeatures run.state.endPtr stream.eid.length (block + 1) =
        some valid ∧
      ∀ eids, (∀ e ∈ eids, e ∈ (genPartMaps g.toTemporalCsr fanNums stream config block).2 ∨
          e ∈ (preNegSample g.toTemporalCsr fanNums stream config block negNodes).2) →
        getEfValid valid eids = eids.map fun e => edgeFeatures.getD e default := by
  obtain ⟨history, counts, edges⟩ := datasetBlocks_history (g := g) sized
  obtain ⟨count, expEids, rest, split, ends⟩ := datasetBlocks_at (g := g) sized begun
  obtain ⟨valid, replayed, reads⟩ := genExpire_reads history counts (Nat.le_trans edges fits)
    searchable edges (Nat.le_trans edges features) ran split
  have turns : ((datasetBlocks g.toTemporalCsr stream config.batchSize).take block).length =
      block := by
    have lengths := congrArg List.length split
    simp only [List.length_append, List.length_cons, List.length_take] at lengths ⊢
    omega
  rw [turns] at replayed
  refine ⟨valid, replayed, fun eids asked => reads eids fun e member => ?_⟩
  rw [ends]
  exact mapped_live sized inStream layers fanouts begun recent (asked e member)

end Dolphin.ValidEdge
