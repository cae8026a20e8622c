import Dolphin.Sampler.ParallelSampler

/-!
# The blocks of the two samplers

`gen_block` makes a DGL block of what the GPU sampler returns, `to_dgl_blocks` of what the
CPU sampler returns. A layer is read off a block: its roots, and its edges in order with
the node, the time and the edge each of them stands for.
-/

namespace Dolphin.Sampler

/-- A block of `dgl.create_block` with its data. -/
@[ext]
structure DglBlock where
  src : List Nat
  dst : List Nat
  numSrcNodes : Nat
  numDstNodes : Nat
  srcID : List Nat
  srcTs : List Nat
  dt : List Nat
  edgeID : List Nat
  deriving DecidableEq

/-- `gen_block(sample_ret)`. -/
def genBlock (ret : SampleRet) : DglBlock :=
  let seedNum := ret.roots.length
  let nodes := ret.roots.map Prod.fst ++ ret.out.map Neighbor.src
  { src := (List.range ret.out.length).map (· + seedNum)
    dst := ret.out.map Neighbor.dst
    numSrcNodes := nodes.length
    numDstNodes := seedNum
    srcID := nodes
    srcTs := ret.roots.map Prod.snd ++ ret.out.map Neighbor.ts
    dt := List.zipWith (· - ·) (ret.out.map Neighbor.dts) (ret.out.map Neighbor.ts)
    edgeID := ret.out.map Neighbor.eid }

/-- `to_dgl_blocks` for one block. -/
def toDglBlock (ret : TemporalGraphBlock) : DglBlock where
  src := ret.col
  dst := ret.row
  numSrcNodes := ret.dimIn
  numDstNodes := ret.dimOut
  srcID := ret.nodes
  srcTs := ret.ts
  dt := ret.dts.drop ret.dimOut
  edgeID := ret.eid

/-- An edge with its destination and source index, the neighbour at the source, the edge's
id, the time of the source and the time delta. -/
structure BlockEdge where
  dst : Nat
  src : Nat
  neighbor : Nat
  eid : Nat
  ts : Nat
  dt : Nat
  deriving DecidableEq

/-- The roots and the edges of a layer. -/
structure Layer where
  roots : List Root
  edges : List BlockEdge
  deriving DecidableEq

/-- What a block says. -/
def DglBlock.layer (block : DglBlock) : Layer where
  roots := (block.srcID.zip block.srcTs).take block.numDstNodes
  edges := (block.dst.zip (block.src.zip (block.edgeID.zip block.dt))).map fun edge =>
    { dst := edge.1
      src := edge.2.1
      neighbor := block.srcID.getD edge.2.1 0
      eid := edge.2.2.1
      ts := block.srcTs.getD edge.2.1 0
      dt := edge.2.2.2 }

/-! ## Blocks of neighbours -/

/-- The edge of a neighbour; the sources lie behind the roots. -/
def Neighbor.edge (count : Nat) (neighbor : Neighbor) (i : Nat) : BlockEdge where
  dst := neighbor.dst
  src := i + count
  neighbor := neighbor.src
  eid := neighbor.eid
  ts := neighbor.ts
  dt := neighbor.dts - neighbor.ts

/-- What stands behind the roots at the source of an edge. -/
theorem getElem?_source {roots : List Root} {out : List Neighbor} (ofRoot : Root → Nat)
    (ofNeighbor : Neighbor → Nat) {i : Nat} (bound : i < out.length) :
    (roots.map ofRoot ++ out.map ofNeighbor)[i + roots.length]? = some (ofNeighbor out[i]) := by
  rw [List.getElem?_append_right (by simp)]
  simp [bound]

/-- The layer of a block that `gen_block` makes. -/
theorem layer_genBlock (ret : SampleRet) :
    (genBlock ret).layer =
      ⟨ret.roots, ret.out.zipIdx.map fun n => n.1.edge ret.roots.length n.2⟩ := by
  have roots : ((genBlock ret).srcID.zip (genBlock ret).srcTs).take ret.roots.length =
      ret.roots := by
    simp only [genBlock]
    rw [List.zip_append (by simp), List.zip_map', List.take_append_of_le_length (by simp)]
    simp
  have edges : (genBlock ret).layer.edges =
      ret.out.zipIdx.map fun n => n.1.edge ret.roots.length n.2 := by
    apply List.ext_getElem
    · simp [DglBlock.layer, genBlock]
    · intro i bound _
      have inside : i < ret.out.length := by simpa [DglBlock.layer, genBlock] using bound
      simp [DglBlock.layer, genBlock, Neighbor.edge, getElem?_source, inside]
  exact congrArg₂ Layer.mk roots edges

end Dolphin.Sampler
