import Dolphin.Cache.SavedFeatures
import Dolphin.Train.Datasets
import Dolphin.Train.Prepared

/-!
# The files of a dataset

A dataset whose features are on a disk, with a row for every node and every edge: where one
window of a feature file has all its rows, `gen_part_stream` extracts them in one flush, and
`reorder_edge` saves the edge features in the order of the graph.
-/

namespace Dolphin.Train

open Dolphin.Buffer Dolphin.Cache Dolphin.Eid Dolphin.Graph Dolphin.Sampler Dolphin.Tensor

/-- The feature files of a dataset. -/
structure Dataset.Features (dataset : Dataset) extends FeatData where
  nodeRows : node.rows.length = dataset.numNodes
  edgeRows : edge.rows.length = dataset.run.stream.eid.length
  plain : '.' ∉ toFeatData.dir.toList

namespace Dataset

variable (dataset : Dataset)

/-! ## The extraction -/

/-- What `gen_part_stream` reads, with the ids that are chosen for its windows. -/
def flushInput (cacheNid cacheEid : Nat → List Nat) : FlushInput where
  hasEf := true
  batchSize := dataset.run.sizes.batchSize
  edgeEnd := dataset.run.stream.eid.length
  nidUni := fun block => (dataset.nodes block).ids
  eidUni := fun block => (dataset.edges block).ids
  cacheNid := cacheNid
  cacheEid := cacheEid
  nodeWindowSize := dataset.numNodes
  edgeWindowSize := dataset.run.stream.eid.length

theorem hasEdges : 0 < dataset.run.stream.eid.length :=
  dataset.nonempty.trans_le dataset.inStream

theorem batchSize_pos : 0 < dataset.run.sizes.batchSize := by
  rw [dataset.sized.batchSize]
  exact Nat.succ_pos _

/-- The first block has edges. -/
theorem edges_ne_nil : (dataset.edges 0).ids ≠ [] := by
  have first : 0 ∈ (dataset.edges 0).ids := by
    rw [dataset.edges_ids]
    refine mem_collectEids.mpr (Or.inl ((mem_slice_eid (Nat.min_le_left _ _)).mpr ?_))
    have edges := dataset.hasEdges
    have size := dataset.batchSize_pos
    omega
  exact List.ne_nil_of_mem first

/-- And nodes. -/
theorem nodes_ne_nil : (dataset.nodes 0).ids ≠ [] := by
  let roots := posRoots dataset.run.stream dataset.run.sizes 0
  have some_ : roots ≠ [] := by
    have edges := dataset.hasEdges
    have size := dataset.batchSize_pos
    have src := dataset.run.stream.srcLength
    have time := dataset.run.stream.timeLength
    refine List.ne_nil_of_length_pos ?_
    simp only [roots, posRoots, List.length_zip, List.length_append, slice_length]
    omega
  obtain ⟨root, source⟩ := List.exists_mem_of_ne_nil _ some_
  obtain ⟨fanNum, fanNums, own⟩ := List.exists_cons_of_ne_nil dataset.layered
  have member : sample dataset.graph.toTemporalCsr fanNum roots ∈
      sampleLayer dataset.graph.toTemporalCsr dataset.fanNums roots := by
    rw [own]
    exact List.mem_cons_self
  rw [dataset.nodes_ids]
  exact List.ne_nil_of_mem ((mem_lastNodes member).2 root source)

variable {dataset}

/-- With fewer edges than `threshold` the features are extracted in one flush. -/
theorem flushInput_extractable (features : dataset.Features) {cacheNid cacheEid : Nat → List Nat}
    (few : dataset.run.stream.eid.length < threshold)
    (nids : ∀ w, ∀ v ∈ cacheNid w, v < dataset.numNodes)
    (eids : ∀ w, ∀ e ∈ cacheEid w, e < dataset.run.stream.eid.length) :
    (dataset.flushInput cacheNid cacheEid).Extractable features.toFeatData
      features.toFeatData.disk where
  plain := features.plain
  hasEf := rfl
  blocks := by
    have edges := dataset.hasEdges
    have size := dataset.batchSize_pos
    refine Nat.div_pos ?_ size
    change dataset.run.sizes.batchSize ≤
      dataset.run.stream.eid.length + dataset.run.sizes.batchSize - 1
    omega
  first := (Nat.min_le_left _ _).trans_lt few
  below := by
    rw [FlushInput.bytesBefore_of_lt few]
    exact Nat.mul_pos (by decide) (Nat.pow_pos (by decide))
  known := by
    intro side block x member
    cases side with
    | node => exact (dataset.nodes_lt member).trans_eq features.nodeRows.symm
    | edge => exact (dataset.edges_lt member).trans_eq features.edgeRows.symm
  knownCache := by
    intro side w x member
    cases side with
    | node => exact (nids w x member).trans_eq features.nodeRows.symm
    | edge => exact (eids w x member).trans_eq features.edgeRows.symm
  occupied := fun side => by
    cases side with
    | node => exact dataset.nodes_ne_nil
    | edge => exact dataset.edges_ne_nil
  window := fun side => by
    cases side with
    | node => exact Nat.le_of_eq features.nodeRows
    | edge => exact Nat.le_of_eq features.edgeRows
  files := features.toFeatData.disk_files
  fresh := features.toFeatData.disk_fresh .edge

/-! ## The reordered file -/

/-- The entries of the graph, as `reorder_edge` loads them. -/
def extFull (dataset : Dataset) (few : dataset.graph.totaleid.length < 2 ^ 31) : ExtFull where
  indptr := dataset.graph.indptr.map Int.ofNat
  eid := dataset.graph.totaleid
  int32 := by
    refine List.forall_mem_map.mpr fun p member => ?_
    have bound : p ≤ dataset.graph.totaleid.length := by
      obtain ⟨early, split⟩ := List.getLast?_eq_some_iff.mp dataset.graph.last
      have rows := dataset.graph.rows
      rw [split] at rows member
      rcases List.mem_append.mp member with before | last
      · exact (List.pairwise_append.mp rows).2.2 p before _ (List.mem_singleton_self _)
      · exact Nat.le_of_eq (List.mem_singleton.mp last)
    change (p : Int) < 2 ^ 31
    omega
  last := by
    rw [List.getLast?_map, dataset.graph.last]
    rfl

variable {φ ψ : Type}

/-- The feature tables with the files of `reorder_edge`, which scatters the edges in order. -/
def tables (dataset : Dataset) (nodeFeats : List φ) (edgeFeats : List ψ) : FeatTables φ ψ :=
  let eid := dataset.graph.totaleid
  let files := (reorderEdge eid edgeFeats (List.range eid.length)).getD ⟨[], []⟩
  ⟨nodeFeats, edgeFeats, files.edgeReorderMap.map Int.toNat, files.edgeFeaturesReorder⟩

theorem tables_saved (few : dataset.graph.totaleid.length < 2 ^ 31) (nodeFeats : List φ)
    {edgeFeats : List ψ} (rows : edgeFeats.length = dataset.run.stream.eid.length) :
    ∃ (csr : ExtFull) (scattered : List Nat), csr.eid = dataset.graph.totaleid ∧
      scattered.Perm (List.range csr.eid.length) ∧
      reorderEdge csr.eid edgeFeats scattered =
        some ⟨(dataset.tables nodeFeats edgeFeats).edgeFeaturesReorder,
          (dataset.tables nodeFeats edgeFeats).edgeReorderMap.map Int.ofNat⟩ := by
  have some_ : dataset.graph.totaleid ≠ [] :=
    List.ne_nil_of_mem (dataset.graph.present 0 dataset.hasEdges)
  have known : ∀ e ∈ dataset.graph.totaleid, e < edgeFeats.length := by
    intro e member
    obtain ⟨p, inside, rfl⟩ := List.mem_iff_getElem.mp member
    have entry := (dataset.graph.entry p inside).1
    rw [TemporalCsr.eidAt, List.getD_eq_getElem?_getD, List.getElem?_eq_getElem inside] at entry
    exact entry.trans_eq rows.symm
  obtain ⟨files, saved⟩ := reorderEdge_isSome some_ known
    (List.range dataset.graph.totaleid.length)
  refine ⟨dataset.extFull few, _, rfl, List.Perm.refl _, ?_⟩
  have natural : (files.edgeReorderMap.map Int.toNat).map Int.ofNat = files.edgeReorderMap := by
    rw [List.map_map]
    refine (List.map_congr_left fun p member => ?_).trans (List.map_id _)
    have position := @reorderEdge_nonneg _ (dataset.extFull few) _ _ (List.Perm.refl _) _ saved p
      member
    exact Int.toNat_of_nonneg position
  simp only [tables, saved, Option.getD_some, natural]
  exact saved

end Dataset

end Dolphin.Train
