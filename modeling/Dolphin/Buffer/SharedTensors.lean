import Dolphin.Buffer.Epoch
import Dolphin.Semantics.Handshake

/-!
# The shared tensors

The worker hands a block over in tensors of fixed size that both processes map. It
writes the lengths and then a prefix of every tensor, one after the other; the main
process reads the prefixes back. The rows of `select_index` and `update_index` travel
in `share_tmp_tensor` in the same way, which is large enough for them; its contents
are kept by their type. The four calls of either kind for the four memory tables are
one request here.
-/

namespace Dolphin.Buffer

open Dolphin.Memory Dolphin.Sampler Dolphin.Semantics Dolphin.Tensor

/-- `tensor[:vals.shape[0]] = vals`: the size of the tensor stays. -/
def writePrefix {β : Type} (tensor vals : List β) : List β :=
  (vals ++ tensor.drop vals.length).take tensor.length

@[simp] theorem writePrefix_length {β : Type} (tensor vals : List β) :
    (writePrefix tensor vals).length = tensor.length := by
  simp only [writePrefix, List.length_take, List.length_append, List.length_drop]
  omega

/-- What fits is read back. -/
theorem take_writePrefix {β : Type} {tensor vals : List β} {count : Nat}
    (aligned : vals.length = count) (fits : count ≤ tensor.length) :
    (writePrefix tensor vals).take count = vals := by
  rw [writePrefix, List.take_take, Nat.min_eq_left fits, ← aligned, List.take_left]

/-- The tensors of `init_share_tensor`. -/
structure SharedTensors (φ ψ α : Type) where
  sharedRetLen : List Nat
  partNodeMap : List Nat
  partNodeFeats : List φ
  partEdgeMap : List Nat
  partEdgeFeats : List ψ
  partMemory : List (NodeMem α)
  preSameNodes : List Bool
  curSameNodes : List Bool
  nodeDInd : List Nat
  edgeDInd : List Nat
  tmpNodeFeats : List φ
  tmpEdgeFeats : List ψ
  tmpMemory : List (NodeMem α)

namespace SharedTensors

variable {φ ψ α : Type}

/-- The tensors have their sizes. -/
structure Shaped (nodeNum edgeNum : Nat) (shared : SharedTensors φ ψ α) : Prop where
  partNodeMap : shared.partNodeMap.length = nodeNum
  partNodeFeats : shared.partNodeFeats.length = nodeNum
  partEdgeMap : shared.partEdgeMap.length = edgeNum
  partEdgeFeats : shared.partEdgeFeats.length = edgeNum
  partMemory : shared.partMemory.length = nodeNum
  preSameNodes : shared.preSameNodes.length = nodeNum
  curSameNodes : shared.curSameNodes.length = nodeNum
  nodeDInd : shared.nodeDInd.length = nodeNum
  edgeDInd : shared.edgeDInd.length = edgeNum

/-- `init_share_tensor`. -/
def zeros (φ ψ α : Type) [Inhabited φ] [Inhabited ψ] [Inhabited α] (nodeNum edgeNum : Nat) :
    SharedTensors φ ψ α where
  sharedRetLen := List.replicate 12 0
  partNodeMap := List.replicate nodeNum 0
  partNodeFeats := List.replicate nodeNum default
  partEdgeMap := List.replicate edgeNum 0
  partEdgeFeats := List.replicate edgeNum default
  partMemory := List.replicate nodeNum default
  preSameNodes := List.replicate nodeNum false
  curSameNodes := List.replicate nodeNum false
  nodeDInd := List.replicate nodeNum 0
  edgeDInd := List.replicate edgeNum 0
  tmpNodeFeats := []
  tmpEdgeFeats := []
  tmpMemory := []

theorem zeros_shaped [Inhabited φ] [Inhabited ψ] [Inhabited α] (nodeNum edgeNum : Nat) :
    (zeros φ ψ α nodeNum edgeNum).Shaped nodeNum edgeNum := by
  constructor <;> simp [zeros]

/-! ## Handing over -/

/-- The assignments of the worker's `prefetch_after`, in order. The four memory
tensors have one length each. -/
def copySteps : List (PreFetched φ ψ α → SharedTensors φ ψ α → SharedTensors φ ψ α) :=
  [fun res shared => { shared with
      sharedRetLen := [res.node.map.length, res.node.feats.length, res.edge.map.length,
        res.edge.feats.length, res.memory.rows.length, res.memory.rows.length,
        res.memory.rows.length, res.memory.rows.length, res.memory.preSame.length,
        res.memory.curSame.length, res.node.dInd.length, res.edge.dInd.length] },
    fun res shared => { shared with
      partNodeMap := writePrefix shared.partNodeMap res.node.map },
    fun res shared => { shared with
      partNodeFeats := writePrefix shared.partNodeFeats res.node.feats },
    fun res shared => { shared with
      partEdgeMap := writePrefix shared.partEdgeMap res.edge.map },
    fun res shared => { shared with
      partEdgeFeats := writePrefix shared.partEdgeFeats res.edge.feats },
    fun res shared => { shared with
      partMemory := writePrefix shared.partMemory res.memory.rows },
    fun res shared => { shared with
      preSameNodes := writePrefix shared.preSameNodes res.memory.preSame },
    fun res shared => { shared with
      curSameNodes := writePrefix shared.curSameNodes res.memory.curSame },
    fun res shared => { shared with nodeDInd := writePrefix shared.nodeDInd res.node.dInd },
    fun res shared => { shared with edgeDInd := writePrefix shared.edgeDInd res.edge.dInd }]

/-- The node side that `Feat_buffer.prefetch_after` reads. -/
def readNode (shared : SharedTensors φ ψ α) : SideResult φ where
  map := shared.partNodeMap.take (shared.sharedRetLen.getD 0 0)
  feats := shared.partNodeFeats.take (shared.sharedRetLen.getD 0 0)
  dInd := shared.nodeDInd.take (shared.sharedRetLen.getD 10 0)

/-- The edge side that it reads. -/
def readEdge (shared : SharedTensors φ ψ α) : SideResult ψ where
  map := shared.partEdgeMap.take (shared.sharedRetLen.getD 2 0)
  feats := shared.partEdgeFeats.take (shared.sharedRetLen.getD 2 0)
  dInd := shared.edgeDInd.take (shared.sharedRetLen.getD 11 0)

/-- The memory that it reads. -/
def readMemory (shared : SharedTensors φ ψ α) : MemoryResult α where
  rows := shared.partMemory.take (shared.sharedRetLen.getD 0 0)
  preSame := shared.preSameNodes.take (shared.sharedRetLen.getD 8 0)
  curSame := shared.curSameNodes.take (shared.sharedRetLen.getD 9 0)

/-- Everything that it reads. -/
def read (shared : SharedTensors φ ψ α) : PreFetched φ ψ α :=
  ⟨shared.readNode, shared.readEdge, shared.readMemory⟩

end SharedTensors

/-- A side fits: its map does, and what is handed over with it is no longer. -/
structure SideResult.Fits {φ : Type} (room : Nat) (result : SideResult φ) : Prop where
  map : result.map.length ≤ room
  feats : result.feats.length = result.map.length
  dInd : result.dInd.length ≤ result.map.length

/-- What the worker hands over fits the tensors. -/
structure PreFetched.Fits {φ ψ α : Type} (nodeNum edgeNum : Nat) (res : PreFetched φ ψ α) :
    Prop where
  node : res.node.Fits nodeNum
  edge : res.edge.Fits edgeNum
  rows : res.memory.rows.length = res.node.map.length
  preSame : res.memory.preSame.length ≤ nodeNum
  curSame : res.memory.curSame.length = res.node.map.length

/-- The main process reads what the worker handed over. -/
theorem SharedTensors.copied {φ ψ α : Type} {nodeNum edgeNum : Nat}
    {shared : SharedTensors φ ψ α} {res : PreFetched φ ψ α} (shaped : shared.Shaped nodeNum edgeNum)
    (fits : res.Fits nodeNum edgeNum) :
    (copySteps.foldl (fun shared step => step res shared) shared).Shaped nodeNum edgeNum ∧
      (copySteps.foldl (fun shared step => step res shared) shared).read = res := by
  have nodeRoom : res.node.map.length ≤ nodeNum := fits.node.map
  have edgeRoom : res.edge.map.length ≤ edgeNum := fits.edge.map
  refine ⟨?_, ?_⟩
  · constructor
    all_goals simp only [copySteps, List.foldl_cons, List.foldl_nil, writePrefix_length]
    · exact shaped.partNodeMap
    · exact shaped.partNodeFeats
    · exact shaped.partEdgeMap
    · exact shaped.partEdgeFeats
    · exact shaped.partMemory
    · exact shaped.preSameNodes
    · exact shaped.curSameNodes
    · exact shaped.nodeDInd
    · exact shaped.edgeDInd
  · simp only [copySteps, List.foldl_cons, List.foldl_nil, read, readNode, readEdge, readMemory,
      List.getD_cons_zero, List.getD_cons_succ]
    rw [take_writePrefix rfl (shaped.partNodeMap ▸ nodeRoom),
      take_writePrefix fits.node.feats (shaped.partNodeFeats ▸ nodeRoom),
      take_writePrefix rfl (shaped.nodeDInd ▸ fits.node.dInd.trans nodeRoom),
      take_writePrefix rfl (shaped.partEdgeMap ▸ edgeRoom),
      take_writePrefix fits.edge.feats (shaped.partEdgeFeats ▸ edgeRoom),
      take_writePrefix rfl (shaped.edgeDInd ▸ fits.edge.dInd.trans edgeRoom),
      take_writePrefix fits.rows (shaped.partMemory ▸ nodeRoom),
      take_writePrefix rfl (shaped.preSameNodes ▸ fits.preSame),
      take_writePrefix rfl (shaped.curSameNodes ▸ fits.curSame ▸ nodeRoom)]

theorem assemble_fits {φ : Type} [Inhabited φ] {config : Config} {part : SidePart φ}
    {neg : IdSet} {partMap : List Nat} {posFeats negFeats : List φ} {room : Nat}
    (fits : (mergeMap part.posMap.ids neg.ids).length ≤ room) :
    (assemble config part neg partMap posFeats negFeats).Fits room where
  map := fits
  feats := by simp [assemble, gather_length]
  dInd := by
    refine (nonzero_length_le _).trans ?_
    simp [assemble, gather_length]

/-- The blocks of an epoch fit. -/
theorem Epoch.preFetch_fits {φ ψ α : Type} [Inhabited φ] [Inhabited ψ] [Inhabited α]
    (epoch : Epoch φ ψ α) (host : Nat → NodeMem α) (block : Nat) (info : MemoryInfo α)
    {gpu : Gpu φ ψ α} (room : gpu.node.map.length ≤ epoch.shareNodeNum) :
    (preFetch epoch.config epoch.tables epoch.parts host
      (gpu.preFetchArgs block (info, epoch.neg block))).Fits epoch.shareNodeNum
        epoch.shareEdgeNum where
  node := assemble_fits (epoch.nodeFits block)
  edge := assemble_fits (epoch.edgeFits block)
  rows := by
    simp only [preFetch, selectMemory]
    split <;> simp
  preSame := by simpa [preFetch, selectMemory, Gpu.preFetchArgs] using room
  curSame := by simp [preFetch, selectMemory]

end Dolphin.Buffer
