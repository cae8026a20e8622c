import Dolphin.Buffer.PreFetch
import Dolphin.Semantics.Calls
import Dolphin.Tensor.LastWrite

/-!
# The reordered file of edge features

`reorder_edge` writes the features once more in the order in which the edges stand in the
CSR, and the position of every edge. An edge can stand there twice, and the scatter keeps
either position. `pre_fetch` reads the new file in its own order and scatters the rows back.
-/

namespace Dolphin.Buffer

open Dolphin.Semantics Dolphin.Tensor

/-- The entries of `ext_full.npz`: `indptr` is an array of int32 and ends with their
number. -/
structure ExtFull where
  indptr : List Int
  eid : List Nat
  int32 : ∀ p ∈ indptr, p < 2 ^ 31
  last : indptr.getLast? = some (eid.length : Int)

/-- `x.to(torch.int32)`. -/
def toInt32 (x : Nat) : Int := (x : Int).bmod (2 ^ 32)

/-- The files that `reorder_edge` saves. -/
structure EdgeReorder (ψ : Type) where
  edgeFeaturesReorder : List ψ
  edgeReorderMap : List Int

variable {ψ : Type}

/-- `reorder_edge`. The occurrences are scattered in the order `scattered`, where the last
one of an edge stays. The maximum of no edge raises, and so does an edge without features. -/
def reorderEdge (eid : List Nat) (edgeFeatures : List ψ) (scattered : List Nat) :
    Option (EdgeReorder ψ) := do
  let maxVal ← eid.max?
  let res := indexAssign (List.replicate (maxVal + 1) 0) (gather eid scattered) scattered
  let ef ← eid.mapM fun e => edgeFeatures[e]?
  some ⟨ef, res.map toInt32⟩

/-- The reordered read of `pre_fetch`: the rows of `dis_neg_eids_feat` under the mask
`edge_dd_ind`, with the positions sorted by `indices`. -/
def reorderedRead [Inhabited ψ] (files : EdgeReorder ψ) (disNegEidsFeat : List ψ)
    (disNegEids : List Nat) (edgeDdInd : List Bool) (indices : List Nat) : List ψ :=
  let reorderInd := gather files.edgeReorderMap (maskSelect edgeDdInd disNegEids)
  let sorted := (gather reorderInd indices).map Int.toNat
  indexAssign disNegEidsFeat (gather (nonzero edgeDdInd) indices)
    (gather files.edgeFeaturesReorder sorted)

/-- The plain read: `dis_neg_eids_feat[edge_dd_ind] = edge_features[dd_neg_eids]`. -/
def plainRead [Inhabited ψ] (edgeFeatures disNegEidsFeat : List ψ) (disNegEids : List Nat)
    (edgeDdInd : List Bool) : List ψ :=
  maskAssign disNegEidsFeat edgeDdInd (gather edgeFeatures (maskSelect edgeDdInd disNegEids))

/-- The worker's rows on disk are the reordered read into zeros. -/
theorem negEdgeFeats_eq {φ : Type} [Inhabited φ] [Inhabited ψ] {config : Config}
    (tables : FeatTables φ ψ) (valid : ValidEdge.ValidEdges ψ) (dis : List Nat) (dd : List Bool)
    (disk : config.useDisk = true) :
    negEdgeFeats config tables valid dis dd =
      reorderedRead ⟨tables.edgeFeaturesReorder, tables.edgeReorderMap.map Int.ofNat⟩
        (dis.map fun _ => default) dis dd
        (argsort (gather tables.edgeReorderMap (maskSelect dd dis))) := by
  have off : config.validEdge = false := by rw [Config.validEdge, disk, Bool.not_true, Bool.and_false]
  have positions : (Int.toNat ∘ Int.ofNat) = id := rfl
  unfold negEdgeFeats reorderedRead
  simp only [off, disk, Bool.false_eq_true, if_false, if_true,
    gather_map_default (show Int.ofNat default = default from rfl), List.map_map, positions,
    List.map_id]
  rfl

/-! ## The position of an edge -/

/-- A position of a CSR fits into an int32. -/
theorem ExtFull.toInt32_eq (csr : ExtFull) {p : Nat} (inside : p < csr.eid.length) :
    toInt32 p = p := by
  have few := csr.int32 _ (List.mem_of_getLast? csr.last)
  exact Int.bmod_eq_of_le (by omega) (by omega)

theorem reorderEdge_isSome {eid : List Nat} {edgeFeatures : List ψ} (some_ : eid ≠ [])
    (known : ∀ e ∈ eid, e < edgeFeatures.length) (scattered : List Nat) :
    ∃ files, reorderEdge eid edgeFeatures scattered = some files := by
  obtain ⟨maxVal, largest⟩ := Option.isSome_iff_exists.mp (List.isSome_max?_of_ne_nil some_)
  obtain ⟨ef, rows⟩ := mapM_isSome fun e member =>
    ⟨_, List.getElem?_eq_getElem (known e member)⟩
  simp only [reorderEdge, largest, rows, Option.bind_eq_bind, Option.bind_some]
  exact ⟨_, rfl⟩

/-- The row at the position of an edge is the one of the edge, whichever occurrence is
scattered last. -/
theorem reorderEdge_row {csr : ExtFull} {edgeFeatures : List ψ} {scattered : List Nat}
    (order : scattered.Perm (List.range csr.eid.length)) {files : EdgeReorder ψ}
    (saved : reorderEdge csr.eid edgeFeatures scattered = some files) {e : Nat}
    (occurs : e ∈ csr.eid) :
    ∃ (p : Nat) (row : ψ), files.edgeReorderMap[e]? = some (p : Int) ∧
      files.edgeFeaturesReorder[p]? = some row ∧ edgeFeatures[e]? = some row := by
  obtain ⟨maxVal, largest, saved⟩ := Option.bind_eq_some_iff.mp saved
  obtain ⟨ef, rows, saved⟩ := Option.bind_eq_some_iff.mp saved
  obtain rfl := Option.some.inj saved
  obtain ⟨count, each⟩ := mapM_some rows
  have written : e ∈ gather csr.eid scattered := (gather_perm order).mem_iff.mpr occurs
  have bound : e < (List.replicate (maxVal + 1) 0).length := by
    rw [List.length_replicate]
    exact Nat.lt_succ_of_le ((List.max?_eq_some_iff.mp largest).2 e occurs)
  obtain ⟨k, p, place, position, kept⟩ :=
    exists_indexAssign written (gather_length csr.eid scattered).symm bound
  have inside : p < csr.eid.length :=
    List.mem_range.mp (order.mem_iff.mp (List.mem_of_getElem? position))
  have own : csr.eid[p]? = some e := by
    rw [gather, List.getElem?_map, position, Option.map_some, List.getD_eq_getElem?_getD,
      List.getElem?_eq_getElem inside] at place
    rw [List.getElem?_eq_getElem inside]
    exact place
  have bound : p < ef.length := count ▸ inside
  have row : ef[p]? = some ef[p] := List.getElem?_eq_getElem bound
  obtain ⟨e', same, feature⟩ := each p _ row
  obtain rfl := Option.some.inj (same.symm.trans own)
  refine ⟨p, _, ?_, row, feature⟩
  rw [List.getElem?_map, kept, Option.map_some, csr.toInt32_eq inside]

/-- The positions are natural numbers. -/
theorem reorderEdge_nonneg {csr : ExtFull} {edgeFeatures : List ψ} {scattered : List Nat}
    (order : scattered.Perm (List.range csr.eid.length)) {files : EdgeReorder ψ}
    (saved : reorderEdge csr.eid edgeFeatures scattered = some files) :
    ∀ p ∈ files.edgeReorderMap, 0 ≤ p := by
  obtain ⟨maxVal, -, saved⟩ := Option.bind_eq_some_iff.mp saved
  obtain ⟨ef, -, saved⟩ := Option.bind_eq_some_iff.mp saved
  obtain rfl := Option.some.inj saved
  refine List.forall_mem_map.mpr fun p member => ?_
  rcases mem_indexAssign member with unset | position
  · obtain rfl := List.eq_of_mem_replicate unset
    exact Int.le_refl 0
  · rw [csr.toInt32_eq (List.mem_range.mp (order.mem_iff.mp position))]
    exact Int.natCast_nonneg p

/-! ## The reordered read -/

/-- The rows read in the new order go to the places they would have gone to anyway. -/
theorem reorderedRead_eq [Inhabited ψ] {files : EdgeReorder ψ} {edgeFeatures feats : List ψ}
    {ids indices : List Nat} {mask : List Bool} (aligned : ids.length = mask.length)
    (rows : feats.length = mask.length)
    (order : indices.Perm (List.range (maskSelect mask ids).length))
    (own : ∀ e ∈ ids, files.edgeFeaturesReorder.getD (files.edgeReorderMap.getD e default).toNat
      default = edgeFeatures.getD e default) :
    reorderedRead files feats ids mask indices = plainRead edgeFeatures feats ids mask := by
  have selected : maskSelect mask ids = gather ids (nonzero mask) :=
    (gather_nonzero aligned.symm).symm
  have count : (nonzero mask).length = (maskSelect mask ids).length := by
    rw [selected, gather_length]
  have read : gather files.edgeFeaturesReorder
      ((gather (gather files.edgeReorderMap (maskSelect mask ids)) indices).map Int.toNat) =
        gather (gather edgeFeatures (maskSelect mask ids)) indices := by
    rw [gather, gather, gather, List.map_map, List.map_map]
    refine List.map_congr_left fun i member => ?_
    have inside : i < (maskSelect mask ids).length := List.mem_range.mp (order.mem_iff.mp member)
    have listed : (maskSelect mask ids)[i] ∈ ids :=
      (maskSelect_sublist mask ids).subset (List.getElem_mem inside)
    simp only [Function.comp_apply, gather, List.getD_eq_getElem?_getD, List.getElem?_map,
      List.getElem?_eq_getElem inside, Option.map_some, Option.getD_some]
    simpa only [List.getD_eq_getElem?_getD] using own _ listed
  have distinct : (nonzero mask).Nodup := (nonzero_pairwise _).imp Nat.ne_of_lt
  have values : (gather edgeFeatures (maskSelect mask ids)).length = (nonzero mask).length := by
    rw [gather_length, count]
  unfold reorderedRead plainRead
  simp only [read]
  rw [indexAssign_gather_perm distinct values (fun i member => rows ▸ nonzero_lt member)
    (count ▸ order), indexAssign_nonzero rows.symm values]

/-- Every edge of the CSR finds its own row in the reordered file, and a reordered read
under a mask is the plain one. -/
theorem reorderedRead_eq_plainRead [Inhabited ψ] (csr : ExtFull) (edgeFeatures : List ψ)
    (scattered : List Nat) (order : scattered.Perm (List.range csr.eid.length)) :
    (csr.eid ≠ [] → (∀ e ∈ csr.eid, e < edgeFeatures.length) →
      ∃ files, reorderEdge csr.eid edgeFeatures scattered = some files) ∧
    ∀ files, reorderEdge csr.eid edgeFeatures scattered = some files →
      (∀ e ∈ csr.eid, ∃ (p : Nat) (row : ψ), files.edgeReorderMap[e]? = some (p : Int) ∧
        files.edgeFeaturesReorder[p]? = some row ∧ edgeFeatures[e]? = some row) ∧
      ∀ (feats : List ψ) (ids : List Nat) (mask : List Bool) (indices : List Nat),
        (∀ e ∈ ids, e ∈ csr.eid) → ids.length = mask.length → feats.length = mask.length →
        indices.Perm (List.range (maskSelect mask ids).length) →
          reorderedRead files feats ids mask indices = plainRead edgeFeatures feats ids mask ∧
          ∀ i : Nat, mask[i]? = some false →
            (reorderedRead files feats ids mask indices)[i]? = feats[i]? := by
  refine ⟨fun some_ known => reorderEdge_isSome some_ known scattered, fun files saved => ?_⟩
  refine ⟨fun e occurs => reorderEdge_row order saved occurs, ?_⟩
  intro feats ids mask indices known aligned rows sorted
  have read : reorderedRead files feats ids mask indices =
      plainRead edgeFeatures feats ids mask := by
    apply reorderedRead_eq aligned rows sorted
    intro e member
    obtain ⟨p, row, position, reordered, feature⟩ := reorderEdge_row order saved (known e member)
    simp only [List.getD_eq_getElem?_getD, position, feature, Option.getD_some, Int.toNat_natCast,
      reordered]
  refine ⟨read, fun i unmasked => ?_⟩
  rw [read, plainRead, maskAssign_other unmasked]

/-- Edges 1 and 0 with edge 1 at two positions, of which the first is scattered last, and a
read of both edges. -/
theorem reorderedRead_eq_plainRead_two :
    ∃ files, reorderEdge [1, 0, 1] [10, 11] [2, 1, 0] = some files ∧
      reorderedRead files [7, 7, 7] [1, 0, 0] [true, true, false] [1, 0] =
        plainRead [10, 11] [7, 7, 7] [1, 0, 0] [true, true, false] := by
  obtain ⟨saves, reads⟩ := reorderedRead_eq_plainRead ⟨[0, 3], [1, 0, 1], by decide, rfl⟩ [10, 11]
    [2, 1, 0] (by decide)
  obtain ⟨files, saved⟩ := saves (by decide) (by decide)
  have read := (reads files saved).2 [7, 7, 7] [1, 0, 0] [true, true, false] [1, 0] (by decide) rfl
    rfl (by decide)
  exact ⟨files, saved, read.1⟩

end Dolphin.Buffer
