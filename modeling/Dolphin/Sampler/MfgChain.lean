import Dolphin.Number.BinaryFloat
import Dolphin.Sampler.DglBlocks
import Dolphin.Sampler.RecentKernel
import Dolphin.Tensor.Sort

/-!
# The chain of message flow graphs

`sample_layer` keeps five tensors of edges and two of roots for every layer. The slots that
are not filled and the edges that `cut_zombie` picks are masked out of each of the five, and
the next roots are concatenated from what is left. `gen_block` makes a block of the tensors
of a layer, `gen_mfgs` puts the deepest layer first. The attention layers take the rows
behind the destinations for those of the edges.
-/

namespace Dolphin.Sampler

open Dolphin.Graph Dolphin.Tensor

/-! ## Sampling with cuts -/

/-- What a layer leaves open: the order of the threads, and the edges that `cut_zombie`
picks from the sampled ones, if it is on. -/
structure LayerChoice where
  order : Nat → List Nat
  isOrder : ∀ count, (order count).Perm (List.range count)
  cut : Option (OutTensors → List Nat)

/-- An entry of `sample_list`; `dts` is `out.outdts`. -/
structure SampleTensors where
  out : OutTensors
  rootNodes : List Nat
  curts : List Nat
  deriving DecidableEq

/-- `out_src[mask]`, and so on for the five tensors. -/
def OutTensors.select (out : OutTensors) (mask : List Bool) : OutTensors :=
  ⟨maskSelect mask out.outSrc, maskSelect mask out.outDst, maskSelect mask out.outts,
    maskSelect mask out.outeid, maskSelect mask out.outdts⟩

/-- The edges that are not cut. -/
def OutTensors.cut (out : OutTensors) (cutIndices : List Nat) : OutTensors :=
  let cutMask := indexFill (List.replicate out.outdts.length false) cutIndices true
  let noncutMask := cutMask.map (!·)
  out.select noncutMask

/-- `torch.median(dts)`: the lower one of two middle values. -/
def median (dts : List Int) : Int := (sort dts).getD ((dts.length - 1) / 2) 0

/-- `cut_indices` for a random permutation: half of the edges from above the median. -/
def zombieIndices (randIndices : List Nat) (out : OutTensors) : List Nat :=
  let cutIndices := nonzero (out.outdts.map fun dt => decide (dt > median out.outdts))
  gather cutIndices (randIndices.take (randIndices.length / 2))

/-- A turn of `sample_layer`. -/
def sampleTensors (g : TemporalCsr) (fanNum : Nat) (choice : LayerChoice)
    (rootNodes ts : List Nat) : Option SampleTensors := do
  let seedNum := rootNodes.length
  let out ← recentKernel g fanNum (rootNodes.zip ts) (choice.order seedNum)
    (.initial (seedNum * fanNum))
  let res := out.compact
  match choice.cut with
  | none => some ⟨res, rootNodes, ts⟩
  | some pick => some ⟨res.cut (pick res), rootNodes, ts⟩

/-- `sample_layer`, with what every layer leaves open next to its fanout. -/
def sampleLayers (g : TemporalCsr) : List (Nat × LayerChoice) → List Nat → List Nat →
    Option (List SampleTensors)
  | [], _, _ => some []
  | (fanNum, choice) :: layers, rootNodes, ts => do
      let ret ← sampleTensors g fanNum choice rootNodes ts
      let sampleList ← sampleLayers g layers (rootNodes ++ ret.out.outSrc.map Int.toNat)
        (ts ++ ret.out.outts.map Int.toNat)
      some (ret :: sampleList)

/-! ## Blocks -/

/-- The difference of two timestamps, which are bit patterns of floats with 23 fraction
bits. -/
def timeDelta (later earlier : Nat) : Nat := BinaryFloat.sub 23 later earlier

/-- `gen_block(sample_ret)`. -/
def SampleTensors.genBlock (ret : SampleTensors) : DglBlock :=
  let seedNum := ret.rootNodes.length
  let nodes := ret.rootNodes ++ ret.out.outSrc.map Int.toNat
  let outts := ret.out.outts.map Int.toNat
  { src := (List.range ret.out.outSrc.length).map (· + seedNum)
    dst := ret.out.outDst.map Int.toNat
    numSrcNodes := nodes.length
    numDstNodes := seedNum
    srcID := nodes
    srcTs := ret.curts ++ outts
    dt := List.zipWith timeDelta (ret.out.outdts.map Int.toNat) outts
    edgeID := ret.out.outeid.map Int.toNat }

/-- `gen_mfgs(sample_ret_list)`. -/
def genMfgs (sampleRetList : List SampleTensors) : List (List DglBlock) :=
  (sampleRetList.map fun ret => [ret.genBlock]).reverse

/-- The source nodes of a block with their times. -/
def DglBlock.srcNodes (block : DglBlock) : List Root := block.srcID.zip block.srcTs

/-- The destination nodes with their times, which are the first source nodes. -/
def DglBlock.dstNodes (block : DglBlock) : List Root := block.srcNodes.take block.numDstNodes

/-! ## What a chain of blocks is -/

/-- An entry sampled for a root. -/
structure Sample where
  root : Root
  dst : Nat
  entry : Nat

/-- The samples of some roots: the most recent entries of each of them. -/
def samples (g : TemporalCsr) (fanNum : Nat) (roots : List Root) : List Sample :=
  roots.zipIdx.flatMap fun root =>
    (g.recent fanNum root.1.1 root.1.2).map fun entry => ⟨root.1, root.2, entry⟩

/-- An edge of a block stands for a sample: it leads from the source node behind the
destinations that has its number to the destination that sampled it. -/
structure EdgeOf (g : TemporalCsr) (fanNum : Nat) (block : DglBlock) (i : Nat)
    (sample : Sample) : Prop where
  src : block.src[i]? = some (block.numDstNodes + i)
  dst : block.dst[i]? = some sample.dst
  root : block.dstNodes[sample.dst]? = some sample.root
  entry : sample.entry ∈ g.recent fanNum sample.root.1 sample.root.2
  neighbor : block.srcNodes[block.numDstNodes + i]? =
    some (g.indices.getD sample.entry 0, g.tsAt sample.entry)
  eid : block.edgeID[i]? = some (g.totaleid.getD sample.entry 0)
  dt : block.dt[i]? = some (timeDelta sample.root.2 (g.tsAt sample.entry))
  positive : 0 < timeDelta sample.root.2 (g.tsAt sample.entry)

/-- The edges of a block stand for samples of its destinations, one after the other, and
for all of them when nothing is cut. -/
structure EdgesOf (g : TemporalCsr) (layer : Nat × LayerChoice) (block : DglBlock)
    (kept : List Sample) : Prop where
  sublist : kept.Sublist (samples g layer.1 block.dstNodes)
  uncut : layer.2.cut = none → kept = samples g layer.1 block.dstNodes
  count : block.src.length = kept.length ∧ block.dst.length = kept.length ∧
    block.edgeID.length = kept.length ∧ block.dt.length = kept.length
  nodes : block.numSrcNodes = block.srcNodes.length ∧
    block.srcNodes.length = block.numDstNodes + kept.length
  edge : ∀ i sample, kept[i]? = some sample → EdgeOf g layer.1 block i sample

/-- The blocks of some layers, the deepest one first: the destinations of a block are the
sources of the next one, and those of the last one are the roots. -/
structure MfgChain (g : TemporalCsr) (layers : List (Nat × LayerChoice)) (roots : List Root)
    (mfgs : List (List DglBlock)) : Prop where
  blocks : mfgs.length = layers.length ∧ ∀ mfg ∈ mfgs, ∃ block, mfg = [block]
  chain : ∀ (l : Nat) deeper shallower, mfgs[l]? = some [deeper] → mfgs[l + 1]? = some [shallower] →
    deeper.dstNodes = shallower.srcNodes
  roots : ∀ block, mfgs.getLast? = some [block] → block.dstNodes = roots
  edges : ∀ (l : Nat) block layer, mfgs[l]? = some [block] → layers.reverse[l]? = some layer →
    ∃ kept, EdgesOf g layer block kept

/-! ## One layer -/

section Layer

variable {g : TemporalCsr}

/-- What the kernel writes for a sample. -/
def Sample.neighbor (g : TemporalCsr) (sample : Sample) : Neighbor :=
  neighborAt g sample.dst sample.root.2 sample.entry

/-- The five tensors of some filled slots. -/
def OutTensors.ofNeighbors (out : List Neighbor) : OutTensors := .ofSlots (out.map some)

/-- A mask is a mask of the slots. -/
theorem OutTensors.select_ofNeighbors (mask : List Bool) (out : List Neighbor) :
    (OutTensors.ofNeighbors out).select mask = .ofNeighbors (maskSelect mask out) := by
  ext1 <;> simp only [select, ofNeighbors, ofSlots, map_maskSelect]

theorem OutTensors.cut_ofNeighbors (out : List Neighbor) (cutIndices : List Nat) :
    ∃ mask, (OutTensors.ofNeighbors out).cut cutIndices = .ofNeighbors (maskSelect mask out) :=
  ⟨_, select_ofNeighbors _ _⟩

/-- The samples of all roots are what the kernel writes. -/
theorem samples_neighbor (fanNum : Nat) (roots : List Root) :
    (samples g fanNum roots).map (Sample.neighbor g) = roots.zipIdx.flatMap fun root =>
      (g.recent fanNum root.1.1 root.1.2).map (neighborAt g root.2 root.1.2) := by
  rw [samples, List.map_flatMap]
  refine List.flatMap_congr fun root _ => ?_
  rw [List.map_map]
  rfl

/-- A sample belongs to the root at its destination. -/
theorem mem_samples {fanNum : Nat} {roots : List Root} {sample : Sample}
    (member : sample ∈ samples g fanNum roots) :
    roots[sample.dst]? = some sample.root ∧
      sample.entry ∈ g.recent fanNum sample.root.1 sample.root.2 := by
  obtain ⟨root, source, inside⟩ := List.mem_flatMap.mp member
  obtain ⟨entry, recent, rfl⟩ := List.mem_map.mp inside
  exact ⟨List.mem_zipIdx_iff_getElem?.mp source, recent⟩

/-- As many roots as nodes. -/
theorem roots_length {rootNodes ts : List Nat} (aligned : ts.length = rootNodes.length) :
    (rootNodes.zip ts).length = rootNodes.length := by
  rw [List.length_zip, aligned, Nat.min_self]

/-- A turn keeps some of the samples, in all five tensors the same ones, and all of them
when nothing is cut. -/
theorem sampleTensors_spec (sorted : ∀ row, g.SortedRow row) (fanNum : Nat) (choice : LayerChoice)
    {rootNodes ts : List Nat} (aligned : ts.length = rootNodes.length) :
    ∃ kept, sampleTensors g fanNum choice rootNodes ts =
        some ⟨.ofNeighbors (kept.map (Sample.neighbor g)), rootNodes, ts⟩ ∧
      kept.Sublist (samples g fanNum (rootNodes.zip ts)) ∧
      (choice.cut = none → kept = samples g fanNum (rootNodes.zip ts)) := by
  have count := roots_length aligned
  have order : (choice.order rootNodes.length).Perm (List.range (rootNodes.zip ts).length) := by
    rw [count]
    exact choice.isOrder _
  obtain ⟨out, run, compact⟩ := recentKernel_compact sorted fanNum (rootNodes.zip ts) order
  rw [count] at run
  rw [← samples_neighbor] at compact
  rw [sampleTensors]
  simp only [run, Option.bind_eq_bind, Option.bind_some, compact]
  cases cut : choice.cut with
  | none => exact ⟨_, rfl, List.Sublist.refl _, fun _ => rfl⟩
  | some pick =>
      let res := (samples g fanNum (rootNodes.zip ts)).map (Sample.neighbor g)
      obtain ⟨mask, masked⟩ := OutTensors.cut_ofNeighbors res (pick (.ofNeighbors res))
      refine ⟨maskSelect mask _, ?_, maskSelect_sublist mask _, fun off => by cases off⟩
      rw [map_maskSelect, ← masked]
      rfl

/-- Only earlier entries are sampled. -/
theorem recent_before {fanNum row ts p : Nat} (member : p ∈ g.recent fanNum row ts) :
    g.tsAt p < ts := by
  have before : p ∈ g.before row ts := List.mem_reverse.mp (List.mem_of_mem_take member)
  exact of_decide_eq_true (List.mem_filter.mp before).2

end Layer

/-! ## One block -/

section Block

variable {g : TemporalCsr} {rootNodes ts : List Nat}

/-- The tensors of a layer that keeps some samples. -/
def keptTensors (g : TemporalCsr) (rootNodes ts : List Nat) (kept : List Sample) :
    SampleTensors :=
  ⟨.ofNeighbors (kept.map (Sample.neighbor g)), rootNodes, ts⟩

/-- Their block. -/
def keptBlock (g : TemporalCsr) (rootNodes ts : List Nat) (kept : List Sample) : DglBlock where
  src := (List.range kept.length).map (· + rootNodes.length)
  dst := kept.map Sample.dst
  numSrcNodes := rootNodes.length + kept.length
  numDstNodes := rootNodes.length
  srcID := rootNodes ++ kept.map fun sample => g.indices.getD sample.entry 0
  srcTs := ts ++ kept.map fun sample => g.tsAt sample.entry
  dt := kept.map fun sample => timeDelta sample.root.2 (g.tsAt sample.entry)
  edgeID := kept.map fun sample => g.totaleid.getD sample.entry 0

theorem genBlock_kept (kept : List Sample) :
    (keptTensors g rootNodes ts kept).genBlock = keptBlock g rootNodes ts kept := by
  ext1 <;> simp [SampleTensors.genBlock, keptTensors, keptBlock, OutTensors.ofNeighbors,
    OutTensors.ofSlots, Sample.neighbor, neighborAt, TemporalCsr.tsAt, Function.comp_def,
    List.zipWith_map]

/-- The nodes and the times of the samples lie behind those of the roots. -/
theorem keptBlock_srcNodes (aligned : ts.length = rootNodes.length) (kept : List Sample) :
    (keptBlock g rootNodes ts kept).srcNodes =
      rootNodes.zip ts ++ kept.map fun sample =>
        (g.indices.getD sample.entry 0, g.tsAt sample.entry) := by
  rw [DglBlock.srcNodes, keptBlock, List.zip_append aligned.symm, List.zip_map']

theorem keptBlock_dstNodes (aligned : ts.length = rootNodes.length) (kept : List Sample) :
    (keptBlock g rootNodes ts kept).dstNodes = rootNodes.zip ts := by
  rw [DglBlock.dstNodes, keptBlock_srcNodes aligned]
  exact List.take_left' (roots_length aligned)

/-- The block has an edge for each of them. -/
theorem keptBlock_edges {layer : Nat × LayerChoice} (aligned : ts.length = rootNodes.length)
    {kept : List Sample} (sublist : kept.Sublist (samples g layer.1 (rootNodes.zip ts)))
    (uncut : layer.2.cut = none → kept = samples g layer.1 (rootNodes.zip ts)) :
    EdgesOf g layer (keptBlock g rootNodes ts kept) kept := by
  have count := roots_length aligned
  have sources := keptBlock_srcNodes (g := g) aligned kept
  have destinations := keptBlock_dstNodes (g := g) aligned kept
  have sized : (keptBlock g rootNodes ts kept).srcNodes.length =
      rootNodes.length + kept.length := by
    rw [sources, List.length_append, count, List.length_map]
  refine ⟨by rwa [destinations], by rwa [destinations], ?_, ⟨sized.symm, sized⟩,
    fun i sample atEdge => ?_⟩
  · simp [keptBlock]
  · obtain ⟨own, recent⟩ := mem_samples (sublist.mem (List.mem_of_getElem? atEdge))
    have bound := (List.getElem?_eq_some_iff.mp atEdge).1
    have neighbor : (keptBlock g rootNodes ts kept).srcNodes[rootNodes.length + i]? =
        some (g.indices.getD sample.entry 0, g.tsAt sample.entry) := by
      rw [sources, List.getElem?_append_right (by omega), count, Nat.add_sub_cancel_left,
        List.getElem?_map, atEdge, Option.map_some]
    constructor
    case neighbor => exact neighbor
    case root => rwa [destinations]
    case entry => exact recent
    case positive => exact BinaryFloat.sub_pos (recent_before recent)
    case src => simp [keptBlock, bound, Nat.add_comm]
    all_goals simp [keptBlock, atEdge]

end Block

/-! ## The layers -/

section Layers

variable {g : TemporalCsr}

/-- What holds of the entries of `sample_list`, the shallowest layer first. -/
structure Layered (g : TemporalCsr) (layers : List (Nat × LayerChoice)) (roots : List Root)
    (sampleList : List SampleTensors) : Prop where
  length : sampleList.length = layers.length
  first : ∀ ret, sampleList[0]? = some ret → ret.genBlock.dstNodes = roots
  linked : ∀ (i : Nat) shallower deeper, sampleList[i]? = some shallower →
    sampleList[i + 1]? = some deeper → deeper.genBlock.dstNodes = shallower.genBlock.srcNodes
  edges : ∀ (i : Nat) ret layer, sampleList[i]? = some ret → layers[i]? = some layer →
    ∃ kept, EdgesOf g layer ret.genBlock kept

/-- The layers are sampled one from the other. -/
theorem sampleLayers_layered (sorted : ∀ row, g.SortedRow row)
    (layers : List (Nat × LayerChoice)) {rootNodes ts : List Nat}
    (aligned : ts.length = rootNodes.length) :
    ∃ sampleList, sampleLayers g layers rootNodes ts = some sampleList ∧
      Layered g layers (rootNodes.zip ts) sampleList := by
  induction layers generalizing rootNodes ts with
  | nil =>
      refine ⟨[], rfl, rfl, ?_, ?_, ?_⟩
      · intro ret none
        cases none
      · intro i shallower deeper none
        cases none
      · intro i ret layer none
        cases none
  | cons layer layers ih =>
      obtain ⟨fanNum, choice⟩ := layer
      obtain ⟨kept, run, sublist, uncut⟩ := sampleTensors_spec sorted fanNum choice aligned
      let ret := keptTensors g rootNodes ts kept
      have block : ret.genBlock = keptBlock g rootNodes ts kept := genBlock_kept kept
      have destinations : ret.genBlock.dstNodes = rootNodes.zip ts := by
        rw [block, keptBlock_dstNodes aligned]
      have nextAligned : ret.genBlock.srcTs.length = ret.genBlock.srcID.length := by
        rw [block]
        simp [keptBlock, aligned]
      obtain ⟨sampleList, later, layered⟩ := ih nextAligned
      have first : sampleTensors g fanNum choice rootNodes ts = some ret := run
      have all : sampleLayers g ((fanNum, choice) :: layers) rootNodes ts =
          some (ret :: sampleList) := by
        -- the nodes and times of the block are the roots of the next layer
        change sampleLayers g layers (rootNodes ++ ret.out.outSrc.map Int.toNat)
          (ts ++ ret.out.outts.map Int.toNat) = some sampleList at later
        rw [sampleLayers, first]
        simp only [Option.bind_eq_bind, Option.bind_some, later]
      refine ⟨ret :: sampleList, all, ?_, ?_, ?_, ?_⟩
      · rw [List.length_cons, List.length_cons, layered.length]
      · intro head atHead
        obtain rfl : ret = head := Option.some.inj atHead
        exact destinations
      · intro i shallower deeper atShallower atDeeper
        cases i with
        | zero =>
            obtain rfl : ret = shallower := Option.some.inj atShallower
            exact layered.first deeper atDeeper
        | succ i => exact layered.linked i shallower deeper atShallower atDeeper
      · intro i other layer atRet atLayer
        cases i with
        | zero =>
            obtain rfl : ret = other := Option.some.inj atRet
            obtain rfl : (fanNum, choice) = layer := Option.some.inj atLayer
            exact ⟨kept, block ▸ keptBlock_edges aligned sublist uncut⟩
        | succ i => exact layered.edges i other layer atRet atLayer

/-- What stands at a position of `gen_mfgs`. -/
theorem genMfgs_getElem? {sampleList : List SampleTensors} {l : Nat} {block : DglBlock}
    (found : (genMfgs sampleList)[l]? = some [block]) :
    l < sampleList.length ∧ ∃ ret, sampleList[sampleList.length - 1 - l]? = some ret ∧
      ret.genBlock = block := by
  have bound : l < sampleList.length := by
    simpa [genMfgs] using (List.getElem?_eq_some_iff.mp found).1
  refine ⟨bound, ?_⟩
  rw [genMfgs, List.getElem?_reverse (by simpa using bound), List.length_map,
    List.getElem?_map] at found
  obtain ⟨ret, atRet, own⟩ := Option.map_eq_some_iff.mp found
  exact ⟨ret, atRet, List.head_eq_of_cons_eq own⟩

/-- The blocks of sampled layers are a chain. -/
theorem Layered.mfgChain {layers : List (Nat × LayerChoice)} {roots : List Root}
    {sampleList : List SampleTensors} (layered : Layered g layers roots sampleList) :
    MfgChain g layers roots (genMfgs sampleList) := by
  have length : (genMfgs sampleList).length = sampleList.length := by simp [genMfgs]
  refine ⟨⟨length.trans layered.length, ?_⟩, ?_, ?_, ?_⟩
  · intro mfg member
    obtain ⟨ret, -, rfl⟩ := List.mem_map.mp (List.mem_reverse.mp member)
    exact ⟨_, rfl⟩
  · intro l deeper shallower atDeeper atShallower
    obtain ⟨-, deeperRet, inDeeper, rfl⟩ := genMfgs_getElem? atDeeper
    obtain ⟨bound, shallowerRet, inShallower, rfl⟩ := genMfgs_getElem? atShallower
    have next : sampleList.length - 1 - l = sampleList.length - 1 - (l + 1) + 1 := by omega
    rw [next] at inDeeper
    exact layered.linked _ shallowerRet deeperRet inShallower inDeeper
  · intro block last
    rw [List.getLast?_eq_getElem?, length] at last
    obtain ⟨bound, ret, atRet, rfl⟩ := genMfgs_getElem? last
    rw [Nat.sub_self] at atRet
    exact layered.first ret atRet
  · intro l block layer atBlock atLayer
    obtain ⟨bound, ret, atRet, rfl⟩ := genMfgs_getElem? atBlock
    rw [List.getElem?_reverse (layered.length ▸ bound)] at atLayer
    rw [layered.length] at atRet
    exact layered.edges _ ret layer atRet atLayer

/-- Whatever the order of the threads and the choice of the cut edges, `sample_layer` ends
and `gen_mfgs` makes a chain of its result. -/
theorem genMfgs_chain (sorted : ∀ row, g.SortedRow row) (layers : List (Nat × LayerChoice))
    (rootNodes ts : List Nat) (aligned : ts.length = rootNodes.length) :
    ∃ sampleList, sampleLayers g layers rootNodes ts = some sampleList ∧
      MfgChain g layers (rootNodes.zip ts) (genMfgs sampleList) := by
  obtain ⟨sampleList, run, layered⟩ := sampleLayers_layered sorted layers aligned
  exact ⟨sampleList, run, layered.mfgChain⟩

end Layers

/-! ## Two layers of one node -/

/-- The threads one after the other, and a random permutation for the cut. -/
def inOrder (cut : Option (List Nat)) : LayerChoice :=
  ⟨List.range, fun _ => List.Perm.refl _, cut.map zombieIndices⟩

theorem genMfgs_chain_oneRow :
    ∃ sampleList, sampleLayers oneRow [(2, inOrder (some [1, 0])), (1, inOrder none)]
        [0, 0, 0] [2, 2, 3] = some sampleList ∧
      MfgChain oneRow [(2, inOrder (some [1, 0])), (1, inOrder none)] [(0, 2), (0, 2), (0, 3)]
        (genMfgs sampleList) :=
  genMfgs_chain oneRow_sorted _ [0, 0, 0] [2, 2, 3] rfl

/-- The second of the two edges of the last root is cut. -/
example : (sampleLayers oneRow [(2, inOrder (some [1, 0]))] [0, 0, 0] [2, 2, 3]).map genMfgs =
    some [[
      { src := [3, 4, 5]
        dst := [0, 1, 2]
        numSrcNodes := 6
        numDstNodes := 3
        srcID := [0, 0, 0, 7, 7, 9]
        srcTs := [2, 2, 3, 1, 1, 2]
        dt := [1, 1, 1]
        edgeID := [0, 0, 2] }]] := by decide

end Dolphin.Sampler
