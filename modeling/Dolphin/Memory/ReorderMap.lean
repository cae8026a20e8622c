import Dolphin.Memory.DiskRefinement
import Dolphin.Memory.UniSimple

/-!
# The rows of the reordered nodes

The nodes of the reorder list get the first rows of the memory file, and the others the
rows behind them. The numbering goes over one id more than the file has rows, and this id
is the one that gets the row behind the file.
-/

namespace Dolphin.Memory

open Dolphin.Tensor

/-- A list of distinct nodes. -/
structure ReorderList (nodeNum : Nat) where
  ids : List Nat
  nodup : ids.Nodup
  known : ∀ v ∈ ids, v < nodeNum

/-- What `uni_simple` returns for nodes of the graph. -/
def ReorderList.ofUniSimple {nodeNum : Nat} {node block : List Nat}
    (sorted : node.Pairwise (· ≤ ·)) (known : ∀ v ∈ node, v < nodeNum)
    {result : List Nat × List Nat × List Nat}
    (returned : (uniSimple node block 1 []).2 = some result) : ReorderList nodeNum where
  ids := result.2.2
  nodup := by
    obtain ⟨resRet, reorder, -, nodup, -⟩ := uniSimple_reorder sorted returned
    rwa [reorder]
  known := by
    obtain ⟨resRet, reorder, members, -, -⟩ := uniSimple_reorder sorted returned
    intro v member
    rw [reorder] at member
    have once := ((members v).mp member).1
    exact known v (List.count_pos_iff.mp (by omega))

/-- `nid`. -/
def reorderedNodes (nodeNum : Nat) (reorderRes : List Nat) : List Nat :=
  let totalNode := List.range (nodeNum + 1)
  reorderRes ++ maskSelect (isin totalNode reorderRes true) totalNode

/-- `node_simple_reorder_map`. -/
def nodeSimpleReorderMap (nodeNum : Nat) (reorderRes : List Nat) : List Nat :=
  let nid := reorderedNodes nodeNum reorderRes
  indexAssign (List.replicate (nodeNum + 1) 0) nid (List.range nid.length)

/-! ## The numbering -/

section Numbering

variable {nodeNum : Nat} (reorder : ReorderList nodeNum)

/-- The nodes of the graph, in the order of their rows. -/
def ReorderList.nodes : List Nat :=
  reorder.ids ++ (List.range nodeNum).filter fun v => v ∉ reorder.ids

theorem ReorderList.nodes_perm : reorder.nodes.Perm (List.range nodeNum) := by
  refine (List.perm_ext_iff_of_nodup ?_ List.nodup_range).mpr fun v => ?_
  · refine List.nodup_append.mpr ⟨reorder.nodup, List.nodup_range.filter _, ?_⟩
    rintro v first w second rfl
    exact of_decide_eq_true (List.mem_filter.mp second).2 first
  · rw [ReorderList.nodes, List.mem_append, List.mem_filter, List.mem_range]
    constructor
    · rintro (listed | ⟨inside, -⟩)
      · exact reorder.known v listed
      · exact inside
    · intro inside
      by_cases listed : v ∈ reorder.ids
      · exact .inl listed
      · exact .inr ⟨inside, decide_eq_true listed⟩

/-- The id behind the nodes comes last. -/
theorem ReorderList.reorderedNodes_eq :
    reorderedNodes nodeNum reorder.ids = reorder.nodes ++ [nodeNum] := by
  have outside : nodeNum ∉ reorder.ids := fun listed =>
    Nat.lt_irrefl _ (reorder.known nodeNum listed)
  unfold reorderedNodes ReorderList.nodes
  simp only
  rw [maskSelect_isin, List.range_succ, List.filter_append, List.append_assoc]
  simp [outside]

/-- The row of a node is its place in the order. -/
theorem ReorderList.getElem?_map {v row : Nat} (place : reorder.nodes[row]? = some v) :
    (nodeSimpleReorderMap nodeNum reorder.ids)[v]? = some row := by
  have inside := (List.getElem?_eq_some_iff.mp place).1
  have distinct : (reorderedNodes nodeNum reorder.ids).Nodup := by
    have nodes := reorder.nodes_perm.nodup_iff.mpr List.nodup_range
    rw [reorder.reorderedNodes_eq]
    refine List.nodup_append.mpr ⟨nodes, List.nodup_singleton _, ?_⟩
    rintro w first _ second rfl
    have bound := List.mem_range.mp (reorder.nodes_perm.mem_iff.mp first)
    rw [List.mem_singleton] at second
    omega
  have known : v < nodeNum :=
    List.mem_range.mp (reorder.nodes_perm.mem_iff.mp (List.mem_of_getElem? place))
  refine indexAssign_own distinct (k := row) ?_ ?_ ?_
  · rw [reorder.reorderedNodes_eq, List.getElem?_append_left inside, place]
  · rw [reorder.reorderedNodes_eq, List.length_append]
    exact List.getElem?_range (by omega)
  · rw [List.length_replicate]
    omega

/-- Every node has a row of the file. -/
theorem ReorderList.exists_row {v : Nat} (known : v < nodeNum) :
    ∃ row < nodeNum, reorder.nodes[row]? = some v := by
  have member := reorder.nodes_perm.mem_iff.mpr (List.mem_range.mpr known)
  obtain ⟨row, place⟩ := List.getElem?_of_mem member
  have inside := (List.getElem?_eq_some_iff.mp place).1
  rw [reorder.nodes_perm.length_eq, List.length_range] at inside
  exact ⟨row, inside, place⟩

theorem ReorderList.map_lt {v : Nat} (known : v < nodeNum) :
    (nodeSimpleReorderMap nodeNum reorder.ids).getD v 0 < nodeNum := by
  obtain ⟨row, inside, place⟩ := reorder.exists_row known
  rw [List.getD_eq_getElem?_getD, reorder.getElem?_map place]
  exact inside

theorem ReorderList.map_injective {v w : Nat} (knownV : v < nodeNum) (knownW : w < nodeNum)
    (same : (nodeSimpleReorderMap nodeNum reorder.ids).getD v 0 =
      (nodeSimpleReorderMap nodeNum reorder.ids).getD w 0) : v = w := by
  obtain ⟨rowV, -, placeV⟩ := reorder.exists_row knownV
  obtain ⟨rowW, -, placeW⟩ := reorder.exists_row knownW
  rw [List.getD_eq_getElem?_getD, List.getD_eq_getElem?_getD, reorder.getElem?_map placeV,
    reorder.getElem?_map placeW] at same
  obtain rfl : rowV = rowW := same
  exact Option.some.inj (placeV.symm.trans placeW)

/-- The map fits the plans for the nodes and a file with a row for each of them. -/
def ReorderList.setup (info : BlockInfo) (reorder : ReorderList info.numNodes) (limit : Nat)
    {weightOrder : List Nat}
    (order : weightOrder.Perm (List.range (genIntervals info.blocks (info.numNodes + 1)).length)) :
    MemorySetup where
  info := info
  limit := limit
  weightOrder := weightOrder
  order := order
  nodeReorderMap := nodeSimpleReorderMap info.numNodes reorder.ids
  fileRows := info.numNodes
  inFile := fun _ known => reorder.map_lt known
  injective := fun _ knownV _ knownW same => reorder.map_injective knownV knownW same

end Numbering

/-! ## The rows of a call -/

/-- `mem_ind` of `mem_select`. -/
def memSelectInd {α : Type} (nodeReorderMap : List Nat) (store : DiskMemory α) (indices : List Nat) :
    List Nat :=
  let loadInd := nonzero (gather store.memFlag indices)
  let loadIndCacheFlag := gather store.nodeCacheFlag (gather indices loadInd)
  let loadInd := gather loadInd (nonzero (loadIndCacheFlag.map (· == 0)))
  gather nodeReorderMap (gather indices loadInd)

/-- `mem_ind` of `mem_update`. -/
def memUpdateInd (plan : SimplePlan) (nodeReorderMap : List Nat) (curBlock : Nat)
    (indices : List Nat) : List Nat :=
  gather nodeReorderMap
    (gather indices (raggedRow plan.startFlushInd plan.startFlushPtr curBlock))

variable {α : Type}

/-- No other rows of the file are read. -/
theorem memSelect_congr [Inhabited α] {param : MemoryParam} {nodeReorderMap : List Nat} {store : DiskMemory α}
    {indices : List Nat} {disk : List (List α)}
    (agree : ∀ row ∈ memSelectInd nodeReorderMap store indices,
      disk.getD row default = store.disk.getD row default) :
    memSelect param nodeReorderMap { store with disk := disk } indices =
      memSelect param nodeReorderMap store indices := by
  have rows : gather disk (memSelectInd nodeReorderMap store indices) =
      gather store.disk (memSelectInd nodeReorderMap store indices) := List.map_congr_left agree
  unfold memSelectInd at rows
  unfold memSelect
  simp only [rows]

/-- No other rows of the file are written. -/
theorem memUpdate_disk_other {plan : SimplePlan} {nodeReorderMap : List Nat}
    {schedule : Schedule α} {store : DiskMemory α} {curBlock : Nat} {indices : List Nat}
    {mems : List (NodeMem α)} {row : Nat}
    (other : row ∉ memUpdateInd plan nodeReorderMap curBlock indices) :
    (memUpdate plan nodeReorderMap schedule store curBlock indices mems).disk[row]? =
      store.disk[row]? := by
  unfold memUpdate
  split
  · rfl
  · exact updateBinDisk_other schedule store.disk _ other

/-- The rows that a selection reads are those of its nodes. -/
theorem mem_memSelectInd {nodeReorderMap : List Nat} {store : DiskMemory α} {indices : List Nat}
    {row : Nat} (member : row ∈ memSelectInd nodeReorderMap store indices) :
    ∃ v ∈ indices, nodeReorderMap.getD v 0 = row := by
  obtain ⟨v, loaded, own⟩ := List.mem_map.mp member
  have positions : ∀ i ∈ nonzero (gather store.memFlag indices), i < indices.length := by
    intro i flagged
    simpa [gather] using nonzero_lt flagged
  refine ⟨v, gather_subset (fun i chosen => positions i (gather_subset ?_ chosen)) loaded, own⟩
  intro k flagged
  simpa [gather] using nonzero_lt flagged

/-- The rows that an update writes are those of its nodes. -/
theorem mem_memUpdateInd {plan : SimplePlan} {nodeReorderMap : List Nat} {curBlock : Nat}
    {indices : List Nat}
    (positions : ∀ i ∈ raggedRow plan.startFlushInd plan.startFlushPtr curBlock,
      i < indices.length)
    {row : Nat} (member : row ∈ memUpdateInd plan nodeReorderMap curBlock indices) :
    ∃ v ∈ indices, nodeReorderMap.getD v 0 = row := by
  obtain ⟨v, written, own⟩ := List.mem_map.mp member
  exact ⟨v, gather_subset positions written, own⟩

/-- Every node has a row of the file for itself. A selection reads only rows of its nodes,
and an update writes only rows of its nodes, so that those of the others stay. -/
theorem nodeSimpleReorderMap_private [Inhabited α] (param : MemoryParam) (nodeNum : Nat)
    (reorder : ReorderList nodeNum) :
    let nodeReorderMap := nodeSimpleReorderMap nodeNum reorder.ids
    (∀ v < nodeNum, nodeReorderMap.getD v 0 < nodeNum) ∧
      (∀ v < nodeNum, ∀ w < nodeNum,
        nodeReorderMap.getD v 0 = nodeReorderMap.getD w 0 → v = w) ∧
      (∀ (store : DiskMemory α) (indices : List Nat), (∀ v ∈ indices, v < nodeNum) →
        (∀ row ∈ memSelectInd nodeReorderMap store indices, row < nodeNum) ∧
          ∀ disk : List (List α),
            (∀ v ∈ indices, disk.getD (nodeReorderMap.getD v 0) default =
              store.disk.getD (nodeReorderMap.getD v 0) default) →
            memSelect param nodeReorderMap { store with disk := disk } indices =
              memSelect param nodeReorderMap store indices) ∧
      ∀ (plan : SimplePlan) (schedule : Schedule α) (store : DiskMemory α) (curBlock : Nat)
        (indices : List Nat) (mems : List (NodeMem α)), (∀ v ∈ indices, v < nodeNum) →
        (∀ i ∈ raggedRow plan.startFlushInd plan.startFlushPtr curBlock, i < indices.length) →
        (∀ row ∈ memUpdateInd plan nodeReorderMap curBlock indices, row < nodeNum) ∧
          ∀ w < nodeNum, w ∉ indices →
            (memUpdate plan nodeReorderMap schedule store curBlock indices mems).disk[
              nodeReorderMap.getD w 0]? = store.disk[nodeReorderMap.getD w 0]? := by
  refine ⟨fun v => reorder.map_lt, fun v knownV w knownW => reorder.map_injective knownV knownW,
    ?_, ?_⟩
  · intro store indices known
    constructor
    · intro row member
      obtain ⟨v, inside, rfl⟩ := mem_memSelectInd member
      exact reorder.map_lt (known v inside)
    · intro disk agree
      refine memSelect_congr fun row member => ?_
      obtain ⟨v, inside, rfl⟩ := mem_memSelectInd member
      exact agree v inside
  · intro plan schedule store curBlock indices mems known positions
    constructor
    · intro row member
      obtain ⟨v, inside, rfl⟩ := mem_memUpdateInd positions member
      exact reorder.map_lt (known v inside)
    · intro w knownW other
      refine memUpdate_disk_other fun member => ?_
      obtain ⟨v, inside, same⟩ := mem_memUpdateInd positions member
      exact other (reorder.map_injective (known v inside) knownW same ▸ inside)

/-- The list of nodes 2 and 0 among four nodes. -/
def twoOfFour : ReorderList 4 := ⟨[2, 0], by decide, by decide⟩

/-- Nodes 2 and 0 have the first rows, and an update of the nodes 3 and 0 writes two of the
four rows. -/
theorem nodeSimpleReorderMap_private_twoOfFour :
    nodeSimpleReorderMap 4 twoOfFour.ids = [1, 2, 0, 3, 4] ∧
      ∀ row ∈ memUpdateInd ⟨[], [0, 1], [], [0, 0], [0, 2], [0, 0], 0⟩
        (nodeSimpleReorderMap 4 twoOfFour.ids) 0 [3, 0], row < 4 :=
  ⟨by decide, ((@nodeSimpleReorderMap_private Nat _ ⟨1, 1, 0⟩ 4 twoOfFour).2.2.2
    ⟨[], [0, 1], [], [0, 0], [0, 2], [0, 0], 0⟩ ⟨id, fun _ => List.Perm.refl _⟩
    ⟨[], [], [], [], []⟩ 0 [3, 0] [] (by decide) (by decide)).1⟩

end Dolphin.Memory
