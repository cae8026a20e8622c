import Dolphin.Sampler.Coverage
import Dolphin.Sampler.MfgChain

/-!
# The blocks of a batch lie in the maps

A batch is sampled by the kernel, whatever the order of its threads, and with the edges
that `cut_zombie` picks removed; the maps were sampled without cuts. Layer by layer the
batch reaches no node and no edge that the uncut sample of its roots does not reach.
-/

namespace Dolphin.Sampler

open Dolphin.Graph Dolphin.Tensor

variable {g : TemporalCsr}

/-! ## Fewer roots and cut edges -/

/-- A block whose nodes and edges a layer has. -/
structure DglBlock.Within (block : DglBlock) (ret : SampleRet) : Prop where
  nodes : ∀ v ∈ block.srcID, v ∈ ret.out.map Neighbor.src ++ ret.roots.map Prod.fst
  edges : ∀ e ∈ block.edgeID, e ∈ ret.out.map Neighbor.eid

/-- More roots are sampled more. -/
theorem sample_mono {fanNum : Nat} {few many : List Root} (subset : ∀ root ∈ few, root ∈ many)
    {n : Neighbor} (sampled : n ∈ (sample g fanNum few).out) :
    ∃ m ∈ (sample g fanNum many).out, m.hop = n.hop := by
  obtain ⟨root, source, hop⟩ := sample_mem_hop.mp ⟨n, sampled, rfl⟩
  exact sample_mem_hop.mpr ⟨root, subset root source, hop⟩

/-- What is kept of the samples is sampled. -/
theorem kept_sampled (sorted : ∀ row, g.SortedRow row) {fanNum : Nat} {roots : List Root}
    {kept : List Sample} (sublist : kept.Sublist (samples g fanNum roots)) {entry : Sample}
    (member : entry ∈ kept) : entry.neighbor g ∈ (sample g fanNum roots).out := by
  rw [sample_out sorted, ← samples_neighbor]
  exact List.mem_map_of_mem (sublist.subset member)

/-- Layer by layer the blocks of some roots lie in the uncut sample of more roots. -/
theorem sampleLayers_within (sorted : ∀ row, g.SortedRow row) {layers : List (Nat × LayerChoice)}
    {rootNodes ts : List Nat} (aligned : ts.length = rootNodes.length) {roots : List Root}
    (subset : ∀ root ∈ rootNodes.zip ts, root ∈ roots) :
    ∃ rets, sampleLayers g layers rootNodes ts = some rets ∧ rets.length = layers.length ∧
      ∀ ret ∈ rets, ∃ other ∈ sampleLayer g (layers.map Prod.fst) roots,
        ret.genBlock.Within other := by
  induction layers generalizing rootNodes ts roots with
  | nil => exact ⟨[], rfl, rfl, fun _ member => absurd member List.not_mem_nil⟩
  | cons layer layers ih =>
      obtain ⟨fanNum, choice⟩ := layer
      obtain ⟨kept, run, sublist, -⟩ := sampleTensors_spec sorted fanNum choice aligned
      let ret := keptTensors g rootNodes ts kept
      have block : ret.genBlock = keptBlock g rootNodes ts kept := genBlock_kept kept
      -- a kept sample stands for a hop of the larger sample
      have reached : ∀ entry ∈ kept, ∃ m ∈ (sample g fanNum roots).out,
          m.hop = (entry.neighbor g).hop := fun entry member =>
        sample_mono subset (kept_sampled sorted sublist member)
      have inside : ret.genBlock.Within (sample g fanNum roots) := by
        rw [block]
        constructor
        · intro v member
          rcases List.mem_append.mp member with root | source
          · obtain ⟨i, bound, rfl⟩ := List.mem_iff_getElem.mp root
            have pair := subset (rootNodes[i], ts[i]) (List.mem_iff_getElem.mpr
              ⟨i, by rw [List.length_zip]; omega, List.getElem_zip⟩)
            exact List.mem_append_right _ (List.mem_map_of_mem pair)
          · obtain ⟨entry, own, rfl⟩ := List.mem_map.mp source
            obtain ⟨m, sampled, same⟩ := reached entry own
            have src : m.src = g.indices.getD entry.entry 0 := congrArg Prod.fst same
            exact List.mem_append_left _ (src ▸ List.mem_map_of_mem sampled)
        · intro e member
          obtain ⟨entry, own, rfl⟩ := List.mem_map.mp member
          obtain ⟨m, sampled, same⟩ := reached entry own
          have eid : m.eid = g.totaleid.getD entry.entry 0 :=
            congrArg (fun hop => hop.2.2) same
          exact eid ▸ List.mem_map_of_mem sampled
      have nextAligned : ret.genBlock.srcTs.length = ret.genBlock.srcID.length := by
        rw [block]
        simp [keptBlock, aligned]
      have nextSubset : ∀ root ∈ ret.genBlock.srcID.zip ret.genBlock.srcTs,
          root ∈ roots ++ (sample g fanNum roots).out.map fun n => (n.src, n.ts) := by
        intro root member
        have sources := keptBlock_srcNodes (g := g) aligned kept
        rw [← block, DglBlock.srcNodes] at sources
        rw [sources] at member
        rcases List.mem_append.mp member with source | sampled
        · exact List.mem_append_left _ (subset root source)
        · obtain ⟨entry, own, rfl⟩ := List.mem_map.mp sampled
          obtain ⟨m, found, same⟩ := reached entry own
          have pair : (m.src, m.ts) = (g.indices.getD entry.entry 0, g.tsAt entry.entry) :=
            congrArg (fun hop => (hop.1, hop.2.1)) same
          exact List.mem_append_right _ (List.mem_map.mpr ⟨m, found, pair⟩)
      obtain ⟨rets, later, length, within⟩ := ih nextAligned nextSubset
      refine ⟨ret :: rets, ?_, congrArg Nat.succ length, List.forall_mem_cons.mpr
        ⟨⟨_, List.mem_cons_self, inside⟩, fun other member => ?_⟩⟩
      case refine_2 =>
          obtain ⟨deeper, sampled, own⟩ := within other member
          exact ⟨deeper, List.mem_cons_of_mem _ sampled, own⟩
      have first : sampleTensors g fanNum choice rootNodes ts = some ret := run
      change sampleLayers g layers (rootNodes ++ ret.out.outSrc.map Int.toNat)
        (ts ++ ret.out.outts.map Int.toNat) = some rets at later
      rw [sampleLayers, first]
      simp only [Option.bind_eq_bind, Option.bind_some, later]

/-- The roots of a layer are kept with its tensors. -/
theorem sampleTensors_rootNodes {fanNum : Nat} {choice : LayerChoice} {rootNodes ts : List Nat}
    {ret : SampleTensors} (run : sampleTensors g fanNum choice rootNodes ts = some ret) :
    ret.rootNodes = rootNodes := by
  obtain ⟨out, -, made⟩ := Option.bind_eq_some_iff.mp run
  cases cut : choice.cut with
  | none =>
      obtain rfl := Option.some.inj (cut ▸ made)
      rfl
  | some pick =>
      obtain rfl := Option.some.inj (cut ▸ made)
      rfl

/-- The nodes of every layer begin with the roots. -/
theorem sampleLayers_prefix {layers : List (Nat × LayerChoice)} {rootNodes ts : List Nat}
    {rets : List SampleTensors} (run : sampleLayers g layers rootNodes ts = some rets) :
    ∀ ret ∈ rets, rootNodes <+: ret.genBlock.srcID := by
  induction layers generalizing rootNodes ts rets with
  | nil =>
      obtain rfl := Option.some.inj run
      exact fun _ member => absurd member List.not_mem_nil
  | cons layer layers ih =>
      obtain ⟨ret, first, run⟩ := Option.bind_eq_some_iff.mp run
      obtain ⟨deeper, later, same⟩ := Option.bind_eq_some_iff.mp run
      obtain rfl := Option.some.inj same
      have own : rootNodes <+: ret.genBlock.srcID := by
        rw [← sampleTensors_rootNodes first]
        exact List.prefix_append _ _
      refine List.forall_mem_cons.mpr ⟨own, fun other member => ?_⟩
      exact (List.prefix_append _ _).trans (ih later other member)

/-! ## The maps -/

/-- The nodes that a layer of one of two samples has are among those of the last layers. -/
theorem mem_map_of_layer {fanNums : List Nat} {pos neg : List Root} {other : SampleRet}
    (sampled : other ∈ sampleLayer g fanNums pos ++ sampleLayer g fanNums neg) {v : Nat}
    (reached : (∃ m ∈ other.out, m.src = v) ∨ ∃ root ∈ other.roots, root.1 = v) :
    v ∈ mergeMap (lastNodes (sampleLayer g fanNums pos))
      (lastNodes (sampleLayer g fanNums neg)) := by
  have last : ∀ {roots : List Root}, other ∈ sampleLayer g fanNums roots →
      v ∈ lastNodes (sampleLayer g fanNums roots) := by
    intro roots member
    rcases reached with ⟨m, found, rfl⟩ | ⟨root, found, rfl⟩
    · exact (mem_lastNodes member).1 m found
    · exact (mem_lastNodes member).2 root found
  exact mem_mergeMap.mpr ((List.mem_append.mp sampled).imp last last)

/-- The roots are in the map. -/
theorem root_mem_map {fanNums : List Nat} (layered : fanNums ≠ []) {pos neg : List Root}
    {root : Root} (covered : root ∈ pos ∨ root ∈ neg) :
    root.1 ∈ mergeMap (lastNodes (sampleLayer g fanNums pos))
      (lastNodes (sampleLayer g fanNums neg)) := by
  obtain ⟨fanNum, rest, rfl⟩ := List.exists_cons_of_ne_nil layered
  rcases covered with inPos | inNeg
  · exact mem_map_of_layer (List.mem_append_left _ List.mem_cons_self)
      (Or.inr ⟨root, inPos, rfl⟩)
  · exact mem_map_of_layer (List.mem_append_right _ List.mem_cons_self)
      (Or.inr ⟨root, inNeg, rfl⟩)

/-- What is sampled for roots among the positive and the negative ones is in the map of
both. -/
theorem DglBlock.Within.covered {fanNums : List Nat} {batch pos neg : List Root}
    (covered : ∀ root ∈ batch, root ∈ pos ∨ root ∈ neg) {block : DglBlock} {ret : SampleRet}
    (within : block.Within ret) (member : ret ∈ sampleLayer g fanNums batch)
    (posEids : List Nat) :
    (∀ v ∈ block.srcID, v ∈ mergeMap (lastNodes (sampleLayer g fanNums pos))
      (lastNodes (sampleLayer g fanNums neg))) ∧
    ∀ e ∈ block.edgeID, e ∈ mergeMap (collectEids posEids (sampleLayer g fanNums pos))
      (collectEids [] (sampleLayer g fanNums neg)) := by
  obtain ⟨hops, roots⟩ := sampleLayer_covered covered member
  constructor
  · intro v inBlock
    rcases List.mem_append.mp (within.nodes v inBlock) with source | root
    · obtain ⟨n, sampled, rfl⟩ := List.mem_map.mp source
      obtain ⟨other, found, m, returned, same⟩ := hops n sampled
      exact mem_map_of_layer found (Or.inl ⟨m, returned, congrArg Prod.fst same⟩)
    · obtain ⟨known, source, rfl⟩ := List.mem_map.mp root
      obtain ⟨other, found, isRoot⟩ := roots known source
      exact mem_map_of_layer found (Or.inr ⟨known, isRoot, rfl⟩)
  · intro e inBlock
    obtain ⟨n, sampled, rfl⟩ := List.mem_map.mp (within.edges e inBlock)
    obtain ⟨other, found, m, returned, same⟩ := hops n sampled
    have eid : m.eid = n.eid := congrArg (fun hop => hop.2.2) same
    rw [mem_mergeMap, mem_collectEids, mem_collectEids, ← eid]
    refine (List.mem_append.mp found).imp (fun inPos => ?_) fun inNeg => ?_
    · exact Or.inr ⟨other, inPos, m, returned, rfl⟩
    · exact Or.inr ⟨other, inNeg, m, returned, rfl⟩

section Block

variable {stream : EdgeStream} {config : BlockConfig} {block : Nat}

/-- The roots of a batch of a block are among the block's positive and negative roots. -/
theorem batchRoots_covered (divides : config.trainBatchSize ∣ config.preSampleSize)
    (inStream : config.trainEdgeEnd ≤ stream.eid.length) {negNodes : List Nat}
    (negLength : negNodes.length = config.blockEnd block - config.blockStart block)
    {ind : List Nat}
    (inBlock : ∀ i ∈ ind, config.blockStart block ≤ i ∧ i < config.blockEnd block) :
    ∀ root ∈ batchRoots stream config negNodes ind,
      root ∈ posRoots stream config block ∨ root ∈ negRoots stream config block negNodes := by
  intro root member
  obtain ⟨i, inBatch, own⟩ := (mem_batchRoots divides inBlock).mp member
  obtain ⟨low, high⟩ := inBlock i inBatch
  exact edgeRoots_covered divides inStream negLength low high root own

/-- The message flow graphs of a batch lie in the maps of its block. -/
theorem batch_within_maps (sorted : ∀ row, g.SortedRow row) (layers : List (Nat × LayerChoice))
    (divides : config.trainBatchSize ∣ config.preSampleSize)
    (inStream : config.trainEdgeEnd ≤ stream.eid.length) {negNodes : List Nat}
    (negLength : negNodes.length = config.blockEnd block - config.blockStart block)
    {ind : List Nat}
    (inBlock : ∀ i ∈ ind, config.blockStart block ≤ i ∧ i < config.blockEnd block)
    {rootNodes ts : List Nat} (aligned : ts.length = rootNodes.length)
    (roots : rootNodes.zip ts = batchRoots stream config negNodes ind) :
    ∃ rets, sampleLayers g layers rootNodes ts = some rets ∧ rets.length = layers.length ∧
      ∀ ret ∈ rets,
        (∀ v ∈ ret.genBlock.srcID,
          v ∈ partNodeMap g (layers.map Prod.fst) stream config block negNodes) ∧
        ∀ e ∈ ret.genBlock.edgeID,
          e ∈ partEdgeMap g (layers.map Prod.fst) stream config block negNodes := by
  have subset : ∀ root ∈ rootNodes.zip ts, root ∈ batchRoots stream config negNodes ind :=
    fun root member => roots ▸ member
  obtain ⟨rets, run, length, within⟩ := sampleLayers_within sorted aligned subset
  refine ⟨rets, run, length, fun ret member => ?_⟩
  obtain ⟨other, sampled, own⟩ := within ret member
  exact own.covered (batchRoots_covered divides inStream negLength inBlock) sampled _

end Block

end Dolphin.Sampler
