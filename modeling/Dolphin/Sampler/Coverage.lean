import Dolphin.Sampler.PartMaps

/-!
# Lookups during training never miss

A batch is sampled from its own roots, a block's maps from all positive and from
all negative roots of the block. Sampling is root by root, so every layer of the
batch lies inside the same layer of the two block samples together, and every
node of a layer is a root of the next one, up to the last layer.
-/

namespace Dolphin.Sampler

open Dolphin.Graph Dolphin.Tensor

/-! ## Layers -/

/-- Every root of the next layer comes from a root of this one. -/
theorem next_covered {g : TemporalCsr} {fanNum : Nat} {batch pos neg : List Root}
    (covered : ∀ root ∈ batch, root ∈ pos ∨ root ∈ neg) :
    ∀ root ∈ batch ++ (sample g fanNum batch).out.map fun n => (n.src, n.ts),
      (root ∈ pos ++ (sample g fanNum pos).out.map fun n => (n.src, n.ts)) ∨
        root ∈ neg ++ (sample g fanNum neg).out.map fun n => (n.src, n.ts) := by
  intro root member
  simp only [sample_next, List.mem_append, List.mem_map, List.mem_flatMap] at member ⊢
  rcases member with old | ⟨hop, ⟨from_, source, sampled⟩, rfl⟩
  · rcases covered root old with inPos | inNeg
    · exact Or.inl (Or.inl inPos)
    · exact Or.inr (Or.inl inNeg)
  · rcases covered from_ source with inPos | inNeg
    · exact Or.inl (Or.inr ⟨hop, ⟨from_, inPos, sampled⟩, rfl⟩)
    · exact Or.inr (Or.inr ⟨hop, ⟨from_, inNeg, sampled⟩, rfl⟩)

/-- Layer by layer, the samples of a batch lie in those of two root lists that
have all its roots. -/
theorem sampleLayer_covered {g : TemporalCsr} {fanNums : List Nat} {batch pos neg : List Root}
    (covered : ∀ root ∈ batch, root ∈ pos ∨ root ∈ neg) {ret : SampleRet}
    (member : ret ∈ sampleLayer g fanNums batch) :
    (∀ n ∈ ret.out, ∃ other ∈ sampleLayer g fanNums pos ++ sampleLayer g fanNums neg,
      ∃ m ∈ other.out, m.hop = n.hop) ∧
    ∀ root ∈ ret.roots, ∃ other ∈ sampleLayer g fanNums pos ++ sampleLayer g fanNums neg,
      root ∈ other.roots := by
  induction fanNums generalizing batch pos neg with
  | nil => simp [sampleLayer] at member
  | cons fanNum fanNums ih =>
      simp only [sampleLayer, List.mem_cons] at member
      rcases member with rfl | later
      · constructor
        · intro n sampled
          obtain ⟨root, source, hop⟩ := sample_mem_hop.mp ⟨n, sampled, rfl⟩
          rcases covered root source with inPos | inNeg
          · obtain ⟨m, found, same⟩ := sample_mem_hop.mpr ⟨root, inPos, hop⟩
            exact ⟨sample g fanNum pos, by simp [sampleLayer], m, found, same⟩
          · obtain ⟨m, found, same⟩ := sample_mem_hop.mpr ⟨root, inNeg, hop⟩
            exact ⟨sample g fanNum neg, by simp [sampleLayer], m, found, same⟩
        · intro root source
          rcases covered root source with inPos | inNeg
          · exact ⟨sample g fanNum pos, by simp [sampleLayer], inPos⟩
          · exact ⟨sample g fanNum neg, by simp [sampleLayer], inNeg⟩
      · obtain ⟨nodes, roots⟩ := ih (next_covered covered) later
        have widen : ∀ other ∈ sampleLayer g fanNums
              (pos ++ (sample g fanNum pos).out.map fun n => (n.src, n.ts)) ++
            sampleLayer g fanNums (neg ++ (sample g fanNum neg).out.map fun n => (n.src, n.ts)),
            other ∈ sampleLayer g (fanNum :: fanNums) pos ++
              sampleLayer g (fanNum :: fanNums) neg := by
          intro other found
          simp only [sampleLayer, List.mem_append, List.mem_cons] at found ⊢
          tauto
        constructor
        · intro n sampled
          obtain ⟨other, found, rest⟩ := nodes n sampled
          exact ⟨other, widen other found, rest⟩
        · intro root source
          obtain ⟨other, found, rest⟩ := roots root source
          exact ⟨other, widen other found, rest⟩

/-- The nodes of every layer are among the sources and roots of the last one. -/
theorem mem_lastNodes {g : TemporalCsr} {fanNums : List Nat} {roots : List Root} {ret : SampleRet}
    (member : ret ∈ sampleLayer g fanNums roots) :
    (∀ n ∈ ret.out, n.src ∈ lastNodes (sampleLayer g fanNums roots)) ∧
      ∀ root ∈ ret.roots, root.1 ∈ lastNodes (sampleLayer g fanNums roots) := by
  induction fanNums generalizing roots ret with
  | nil => simp [sampleLayer] at member
  | cons fanNum fanNums ih =>
      cases fanNums with
      | nil =>
          simp only [sampleLayer, List.mem_singleton] at member
          subst member
          constructor
          · intro n sampled
            simp only [sampleLayer, lastNodes, mem_unique, List.mem_append]
            exact Or.inl (List.mem_map_of_mem sampled)
          · intro root source
            simp only [sampleLayer, lastNodes, mem_unique, List.mem_append]
            exact Or.inr (List.mem_map_of_mem source)
      | cons next rest =>
          let further := roots ++ (sample g fanNum roots).out.map fun n => (n.src, n.ts)
          have tail : lastNodes (sampleLayer g (fanNum :: next :: rest) roots) =
              lastNodes (sampleLayer g (next :: rest) further) := rfl
          rw [tail]
          rcases List.mem_cons.mp member with rfl | inTail
          · -- the nodes of this layer are roots of the next one
            have first : sample g next further ∈ sampleLayer g (next :: rest) further := by
              simp [sampleLayer]
            have roots_ := (ih first).2
            constructor
            · intro n sampled
              exact roots_ (n.src, n.ts) (List.mem_append_right _ (List.mem_map_of_mem sampled))
            · intro root source
              exact roots_ root (List.mem_append_left _ source)
          · exact ih inTail

theorem lastNodes_increasing (rets : List SampleRet) : (lastNodes rets).Pairwise (· < ·) := by
  induction rets with
  | nil => exact List.Pairwise.nil
  | cons ret rets ih =>
      cases rets with
      | nil => exact (IdSet.ofList _).increasing
      | cons next rets => exact ih

theorem collectEids_increasing {eidUni : List Nat} (sorted : eidUni.Pairwise (· < ·))
    (rets : List SampleRet) : (collectEids eidUni rets).Pairwise (· < ·) := by
  induction rets generalizing eidUni with
  | nil => exact sorted
  | cons ret rets ih => exact ih (IdSet.ofList _).increasing

/-- What holds of the roots and of every hop holds of the nodes of a sample. -/
theorem of_mem_lastNodes {g : TemporalCsr} {known : Nat → Prop}
    (reaches : ∀ fanNum root, ∀ hop ∈ hops g fanNum root, known hop.1) {fanNums : List Nat}
    {roots : List Root} (own : ∀ root ∈ roots, known root.1) {v : Nat}
    (member : v ∈ lastNodes (sampleLayer g fanNums roots)) : known v := by
  have sampled (fanNum : Nat) (roots : List Root) : ∀ n ∈ (sample g fanNum roots).out,
      known n.src := by
    intro n inSample
    obtain ⟨root, -, hop⟩ := sample_mem_hop.mp ⟨n, inSample, rfl⟩
    exact reaches fanNum root n.hop hop
  induction fanNums generalizing roots with
  | nil => exact absurd member List.not_mem_nil
  | cons fanNum fanNums ih =>
      cases fanNums with
      | nil =>
          rcases List.mem_append.mp (mem_unique.mp member) with hop | root
          · obtain ⟨n, inSample, rfl⟩ := List.mem_map.mp hop
            exact sampled fanNum roots n inSample
          · obtain ⟨source, inRoots, rfl⟩ := List.mem_map.mp root
            exact own source inRoots
      | cons next fanNums =>
          refine ih (fun root further => ?_) member
          rcases List.mem_append.mp further with inRoots | hop
          · exact own root inRoots
          · obtain ⟨n, inSample, rfl⟩ := List.mem_map.mp hop
            exact sampled fanNum roots n inSample

/-! ## Blocks -/

/-- The source, the destination and the negative of an edge, at the edge's time. -/
def edgeRoots (stream : EdgeStream) (config : BlockConfig) (block : Nat) (negNodes : List Nat)
    (i : Nat) : List Root :=
  [(stream.src.getD i default, stream.time.getD i default),
    (stream.dst.getD i default, stream.time.getD i default),
    (negNodes.getD (i - config.blockStart block) default, stream.time.getD i default)]

variable {stream : EdgeStream} {config : BlockConfig} {block : Nat}

/-- The bounds of a block, as the planner and as the trainer compute them. -/
theorem block_bounds (divides : config.trainBatchSize ∣ config.preSampleSize) {i : Nat}
    (low : config.blockStart block ≤ i) (high : i < config.blockEnd block) :
    config.blockStart block = block * config.batchSize ∧
      i < config.trainEdgeEnd ∧ i < (block + 1) * config.batchSize ∧
      i % config.preSampleSize = i - config.blockStart block := by
  have size : config.batchNum * config.trainBatchSize = config.preSampleSize :=
    Nat.div_mul_cancel divides
  have whole : config.batchSize = config.preSampleSize := by
    rw [BlockConfig.batchSize, Nat.mul_comm, size]
  have start : config.blockStart block = block * config.preSampleSize := by
    rw [BlockConfig.blockStart, Nat.mul_assoc, size]
  have stop : (block * config.batchNum + config.batchNum) * config.trainBatchSize =
      block * config.preSampleSize + config.preSampleSize := by
    rw [Nat.add_mul, Nat.mul_assoc, size]
  rw [BlockConfig.blockEnd, stop] at high
  rw [start] at low
  have next : (block + 1) * config.preSampleSize =
      block * config.preSampleSize + config.preSampleSize := Nat.succ_mul _ _
  refine ⟨by rw [start, whole], by omega, by rw [whole, next]; omega, ?_⟩
  rw [start]
  have split : i = i - block * config.preSampleSize + config.preSampleSize * block := by
    rw [Nat.mul_comm config.preSampleSize block]
    omega
  conv_lhs => rw [split]
  rw [Nat.add_mul_mod_self_left, Nat.mod_eq_of_lt (by omega)]

/-- The roots of a batch are those of its edges. -/
theorem mem_batchRoots (divides : config.trainBatchSize ∣ config.preSampleSize)
    {negNodes ind : List Nat}
    (inBlock : ∀ i ∈ ind, config.blockStart block ≤ i ∧ i < config.blockEnd block) {root : Root} :
    root ∈ batchRoots stream config negNodes ind ↔
      ∃ i ∈ ind, root ∈ edgeRoots stream config block negNodes i := by
  have position : gather negNodes (ind.map (· % config.preSampleSize)) =
      ind.map fun i => negNodes.getD (i - config.blockStart block) default := by
    rw [gather, List.map_map]
    apply List.map_congr_left
    intro i member
    obtain ⟨low, high⟩ := inBlock i member
    simp only [Function.comp_apply, (block_bounds divides low high).2.2.2]
  unfold batchRoots
  simp only
  rw [position, List.zip_append (by simp [gather]), List.zip_append (by simp [gather])]
  simp only [gather, List.zip_map', List.mem_append, List.mem_map, edgeRoots, List.mem_cons,
    List.not_mem_nil, or_false]
  constructor
  · rintro ((⟨i, member, rfl⟩ | ⟨i, member, rfl⟩) | ⟨i, member, rfl⟩)
    · exact ⟨i, member, Or.inl rfl⟩
    · exact ⟨i, member, Or.inr (Or.inl rfl)⟩
    · exact ⟨i, member, Or.inr (Or.inr rfl)⟩
  · rintro ⟨i, member, rfl | rfl | rfl⟩
    · exact Or.inl (Or.inl ⟨i, member, rfl⟩)
    · exact Or.inl (Or.inr ⟨i, member, rfl⟩)
    · exact Or.inr ⟨i, member, rfl⟩

/-- The roots of a block's edge are among the block's positive and negative roots. -/
theorem edgeRoots_covered (divides : config.trainBatchSize ∣ config.preSampleSize)
    (inStream : config.trainEdgeEnd ≤ stream.eid.length) {negNodes : List Nat}
    (negLength : negNodes.length = config.blockEnd block - config.blockStart block) {i : Nat}
    (low : config.blockStart block ≤ i) (high : i < config.blockEnd block) :
    ∀ root ∈ edgeRoots stream config block negNodes i,
      root ∈ posRoots stream config block ∨ root ∈ negRoots stream config block negNodes := by
  obtain ⟨start, inTraining, inBlock, -⟩ := block_bounds divides low high
  have stop : config.blockEnd block ≤ config.trainEdgeEnd := Nat.min_le_left _ _
  have inside : i ∈ List.range' (block * config.batchSize)
      (min stream.eid.length ((block + 1) * config.batchSize) - block * config.batchSize) := by
    rw [List.mem_range'_1]
    omega
  have right : min stream.eid.length ((block + 1) * config.batchSize) ≤ stream.eid.length :=
    Nat.min_le_left _ _
  have lengths := And.intro stream.srcLength (And.intro stream.dstLength stream.timeLength)
  have pos : posRoots stream config block =
      ((List.range' (block * config.batchSize)
        (min stream.eid.length ((block + 1) * config.batchSize) - block * config.batchSize)).map
          fun i => (stream.src.getD i default, stream.time.getD i default)) ++
      (List.range' (block * config.batchSize)
        (min stream.eid.length ((block + 1) * config.batchSize) - block * config.batchSize)).map
          fun i => (stream.dst.getD i default, stream.time.getD i default) := by
    unfold posRoots
    simp only
    rw [slice_eq_map (by omega), slice_eq_map (by omega), slice_eq_map (by omega),
      List.zip_append (by simp), List.zip_map', List.zip_map']
  have neg : (negNodes.getD (i - config.blockStart block) default, stream.time.getD i default) ∈
      negRoots stream config block negNodes := by
    have times : slice stream.time (config.blockStart block) (config.blockEnd block) =
        (List.range' (config.blockStart block)
          (config.blockEnd block - config.blockStart block)).map
            fun i => stream.time.getD i default := slice_eq_map (by omega)
    have entry : (List.range' (config.blockStart block)
        (config.blockEnd block - config.blockStart block))[i - config.blockStart block]? =
          some i := by
      rw [List.getElem?_range' (by omega)]
      congr 1
      omega
    have short : i - config.blockStart block < negNodes.length := by omega
    rw [negRoots, times, List.mem_iff_getElem?]
    refine ⟨i - config.blockStart block, List.getElem?_zip_eq_some.mpr ⟨?_, ?_⟩⟩
    · simp [List.getD_eq_getElem?_getD, short]
    · rw [List.getElem?_map, entry]
      rfl
  intro root member
  rw [pos, List.mem_append]
  simp only [edgeRoots, List.mem_cons, List.not_mem_nil, or_false] at member
  rcases member with rfl | rfl | rfl
  · exact Or.inl (Or.inl (List.mem_map_of_mem inside))
  · exact Or.inl (Or.inr (List.mem_map_of_mem inside))
  · exact Or.inr neg

/-- The edges of a block are among its positive edges. -/
theorem edge_mem_genPartMaps (g : TemporalCsr) (fanNums : List Nat)
    (divides : config.trainBatchSize ∣ config.preSampleSize)
    (inStream : config.trainEdgeEnd ≤ stream.eid.length) {i : Nat}
    (low : config.blockStart block ≤ i) (high : i < config.blockEnd block) :
    i ∈ (genPartMaps g fanNums stream config block).2 := by
  obtain ⟨start, inTraining, inBlock, -⟩ := block_bounds divides low high
  have member : i ∈ slice stream.eid (block * config.batchSize)
      (min stream.eid.length ((block + 1) * config.batchSize)) :=
    (mem_slice_eid (Nat.min_le_left _ _)).mpr (by omega)
  exact mem_collectEids.mpr (Or.inl member)

/-- Every node and every edge the sampler returns for a batch of a block, every
root node and every root edge of the batch are in the block's maps. -/
theorem part_maps_cover (g : TemporalCsr) {fanNums : List Nat} (layers : fanNums ≠ [])
    (divides : config.trainBatchSize ∣ config.preSampleSize)
    (inStream : config.trainEdgeEnd ≤ stream.eid.length) {negNodes : List Nat}
    (negLength : negNodes.length = config.blockEnd block - config.blockStart block)
    {ind : List Nat}
    (inBlock : ∀ i ∈ ind, config.blockStart block ≤ i ∧ i < config.blockEnd block) :
    (∀ ret ∈ sampleLayer g fanNums (batchRoots stream config negNodes ind),
      (∀ n ∈ ret.out, n.src ∈ partNodeMap g fanNums stream config block negNodes ∧
        n.eid ∈ partEdgeMap g fanNums stream config block negNodes) ∧
      ∀ root ∈ ret.roots, root.1 ∈ partNodeMap g fanNums stream config block negNodes) ∧
    (∀ root ∈ batchRoots stream config negNodes ind,
      root.1 ∈ partNodeMap g fanNums stream config block negNodes) ∧
    ∀ i ∈ ind, i ∈ partEdgeMap g fanNums stream config block negNodes := by
  have covered : ∀ root ∈ batchRoots stream config negNodes ind,
      root ∈ posRoots stream config block ∨ root ∈ negRoots stream config block negNodes := by
    intro root member
    obtain ⟨i, inBatch, own⟩ := (mem_batchRoots divides inBlock).mp member
    obtain ⟨low, high⟩ := inBlock i inBatch
    exact edgeRoots_covered divides inStream negLength low high root own
  have nodes : ∀ {ret}, ret ∈ sampleLayer g fanNums (posRoots stream config block) ++
      sampleLayer g fanNums (negRoots stream config block negNodes) →
      (∀ n ∈ ret.out, n.src ∈ partNodeMap g fanNums stream config block negNodes) ∧
        ∀ root ∈ ret.roots, root.1 ∈ partNodeMap g fanNums stream config block negNodes := by
    intro ret member
    rcases List.mem_append.mp member with inPos | inNeg
    · obtain ⟨sampled, roots⟩ := mem_lastNodes inPos
      exact ⟨fun n found => mem_mergeMap.mpr (Or.inl (sampled n found)),
        fun root found => mem_mergeMap.mpr (Or.inl (roots root found))⟩
    · obtain ⟨sampled, roots⟩ := mem_lastNodes inNeg
      exact ⟨fun n found => mem_mergeMap.mpr (Or.inr (sampled n found)),
        fun root found => mem_mergeMap.mpr (Or.inr (roots root found))⟩
  have edges : ∀ {ret}, ret ∈ sampleLayer g fanNums (posRoots stream config block) ++
      sampleLayer g fanNums (negRoots stream config block negNodes) →
      ∀ n ∈ ret.out, n.eid ∈ partEdgeMap g fanNums stream config block negNodes := by
    intro ret member n found
    rcases List.mem_append.mp member with inPos | inNeg
    · exact mem_mergeMap.mpr (Or.inl (mem_collectEids.mpr (Or.inr ⟨ret, inPos, n, found, rfl⟩)))
    · exact mem_mergeMap.mpr (Or.inr (mem_collectEids.mpr (Or.inr ⟨ret, inNeg, n, found, rfl⟩)))
  have sampled : ∀ ret ∈ sampleLayer g fanNums (batchRoots stream config negNodes ind),
      (∀ n ∈ ret.out, n.src ∈ partNodeMap g fanNums stream config block negNodes ∧
        n.eid ∈ partEdgeMap g fanNums stream config block negNodes) ∧
      ∀ root ∈ ret.roots, root.1 ∈ partNodeMap g fanNums stream config block negNodes := by
    intro ret member
    obtain ⟨hopCovered, rootCovered⟩ := sampleLayer_covered covered member
    constructor
    · intro n found
      obtain ⟨other, inBlockSample, m, returned, same⟩ := hopCovered n found
      obtain ⟨src, -, eid⟩ : m.src = n.src ∧ m.ts = n.ts ∧ m.eid = n.eid := by
        simpa [Neighbor.hop] using same
      exact ⟨src ▸ (nodes inBlockSample).1 m returned, eid ▸ edges inBlockSample m returned⟩
    · intro root found
      obtain ⟨other, inBlockSample, isRoot⟩ := rootCovered root found
      exact (nodes inBlockSample).2 root isRoot
  refine ⟨sampled, ?_, ?_⟩
  · intro root member
    obtain ⟨fanNum, rest, rfl⟩ := List.exists_cons_of_ne_nil layers
    exact (sampled (sample g fanNum (batchRoots stream config negNodes ind))
      (by simp [sampleLayer])).2 root member
  · intro i member
    obtain ⟨low, high⟩ := inBlock i member
    exact mem_mergeMap.mpr (Or.inl (edge_mem_genPartMaps g fanNums divides inStream low high))

/-- The second block of four edges on a path, sampled over two layers. -/
theorem part_maps_cover_path :
    let g : TemporalCsr := ⟨[0, 1, 3, 5, 7, 8], [1, 0, 2, 1, 3, 2, 4, 3],
      [1, 1, 2, 2, 3, 3, 4, 4], [0, 0, 1, 1, 2, 2, 3, 3]⟩
    let stream : EdgeStream := ⟨[0, 1, 2, 3], [1, 2, 3, 4], [1, 2, 3, 4], [0, 1, 2, 3],
      rfl, rfl, rfl, rfl⟩
    ∀ ret ∈ sampleLayer g [2, 1] (batchRoots stream ⟨2, 1, 4⟩ [0, 1] [3]),
      ∀ n ∈ ret.out, n.src ∈ partNodeMap g [2, 1] stream ⟨2, 1, 4⟩ 1 [0, 1] ∧
        n.eid ∈ partEdgeMap g [2, 1] stream ⟨2, 1, 4⟩ 1 [0, 1] := by
  intro g stream ret member
  exact ((part_maps_cover g (by decide) (by decide) (by decide) (by decide)
    (by decide)).1 ret member).1

end Dolphin.Sampler
