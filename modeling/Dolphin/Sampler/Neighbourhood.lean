import Dolphin.Graph.BuiltStream
import Dolphin.Sampler.MfgChain
import Dolphin.Semantics.Largest

/-!
# Sampling is a walk on the edge list

From the edge list to the samples: on the graph that is built from an edge list, every
layer gives each of its roots the latest edges of the root's node before the root's time,
whatever the order of the list, of the sorts and of the threads.
-/

namespace Dolphin.Sampler

open Dolphin.Graph Dolphin.Semantics Dolphin.Tensor

/-! ## The neighbours of a node in the edge list -/

/-- The entries of a node. -/
def nodeEntries (addReverse : Bool) (df : List (CsvEdge Nat)) (node : Nat) : List (Entry Nat) :=
  ((occurrences addReverse (fun _ => true) df).filter fun occ => occ.1 = node).map Prod.snd

/-- The entries of a root's node before its time. -/
def earlier (addReverse : Bool) (df : List (CsvEdge Nat)) (root : Root) : List (Entry Nat) :=
  (nodeEntries addReverse df root.1).filter fun entry => entry.ts < root.2

/-- What is returned when the root at `index` has picked an entry. -/
def pickedNeighbor (index ts : Nat) (entry : Entry Nat) : Neighbor :=
  ⟨entry.index, index, entry.ts, entry.eid, ts⟩

/-- What a layer returns: the latest earlier entries of every root, root by root, of which
`cut_zombie` may drop some. -/
def Hop (addReverse : Bool) (df : List (CsvEdge Nat)) (layer : Nat × LayerChoice)
    (roots : List Root) (out : List Neighbor) : Prop :=
  ∃ picked : Root → List (Entry Nat),
    (∀ root, Largest Entry.ts layer.1 (earlier addReverse df root) (picked root)) ∧
    let all := roots.zipIdx.flatMap fun root => (picked root.1).map (pickedNeighbor root.2 root.1.2)
    out.Sublist all ∧ (layer.2.cut = none → out = all)

/-- What some layers return. The roots of a layer are those of the one before and what it
returned. -/
inductive Walk (addReverse : Bool) (df : List (CsvEdge Nat)) :
    List (Nat × LayerChoice) → List Root → List SampleTensors → Prop
  | nil {roots : List Root} : Walk addReverse df [] roots []
  | cons {layer : Nat × LayerChoice} {layers : List (Nat × LayerChoice)} {roots : List Root}
      {out : List Neighbor} {rets : List SampleTensors} (hop : Hop addReverse df layer roots out)
      (rest : Walk addReverse df layers (roots ++ out.map fun n => (n.src, n.ts)) rets) :
      Walk addReverse df (layer :: layers) roots
        (⟨.ofNeighbors out, roots.map Prod.fst, roots.map Prod.snd⟩ :: rets)

/-! ## The tensors of the sampler -/

/-- `.to(torch.float32)`, as the bit pattern of the result: rounding to the nearest float does
not turn the order of two times round. -/
structure Float32Cast (τ : Type) [LE τ] where
  bits : τ → Nat
  mono : ∀ ⦃x y⦄, x ≤ y → bits x ≤ bits y

/-- The cast of whole numbers. -/
def wholeNumbers : Float32Cast Nat where
  bits n := BinaryFloat.pattern 23 127 (BinaryFloat.ofNat 23 n)
  mono := fun _ _ order => BinaryFloat.pattern_mono 23 127 (BinaryFloat.ofNat_mono 23 order)

/-- A second behind 2 ^ 24 is rounded away. -/
example : wholeNumbers.bits (2 ^ 24 + 1) = wholeNumbers.bits (2 ^ 24) := by decide +kernel

/-- The tensors that `Sampler_GPU` makes of a saved graph. -/
def gpuTensors {τ : Type} [LE τ] (cast : Float32Cast τ) (csr : Csr τ) : TemporalCsr :=
  (csr.mapTime cast.bits).temporal

/-- The edge list with the times that the sampler compares. -/
def castTimes {τ : Type} [LE τ] (cast : Float32Cast τ) (df : List (CsvEdge τ)) :
    List (CsvEdge Nat) :=
  df.map (CsvEdge.mapTime cast.bits)

/-! ## The rows of the tensors -/

section Rows

variable {csr : Csr Nat} {addReverse : Bool} {df : List (CsvEdge Nat)}

/-- The entries at the positions of a row. -/
theorem map_rowPositions (indexed : csr.Indexes addReverse (fun _ => true) df) (row : Nat) :
    (csr.temporal.rowPositions row).map csr.entryAt = csr.segment row := by
  apply List.ext_getElem?
  intro i
  rw [List.getElem?_map, TemporalCsr.rowPositions]
  by_cases inside : i < csr.temporal.rowEnd row - csr.temporal.rowStart row
  · have inRow : csr.temporal.InRow row (csr.temporal.rowStart row + i) :=
      ⟨Nat.le_add_right _ _, Nat.add_lt_of_lt_sub' inside⟩
    have own := indexed.segment_getElem? inRow
    rw [Nat.add_sub_cancel_left] at own
    rw [List.getElem?_range' inside, own, Nat.one_mul]
    rfl
  · have short : (csr.segment row).length ≤ i := by
      rw [Csr.segment, Graph.slice, List.length_drop, ← Csr.rowStart_temporal, ← Csr.rowEnd_temporal]
      exact (Nat.sub_le_sub_right (List.length_take_le _ _) _).trans (Nat.le_of_not_lt inside)
    rw [List.getElem?_eq_none (List.length_range'.trans_le (Nat.le_of_not_lt inside)),
      List.getElem?_eq_none short]
    rfl

/-- A node behind the bounds has no segment. -/
theorem segment_beyond (csr : Csr Nat) {node : Nat} (beyond : csr.indptr.length ≤ node + 1) :
    csr.segment node = [] := by
  rw [Csr.segment, List.getD_eq_default _ _ beyond]
  exact List.drop_nil

/-- What is taken at one index of a range only. -/
theorem flatMap_range_single {α : Type} (xs : List α) (node count : Nat) :
    ((List.range count).flatMap fun i => if i = node then xs else []) =
      if node < count then xs else [] := by
  induction count with
  | zero => rfl
  | succ count ih =>
      rw [List.range_succ, List.flatMap_append, ih, List.flatMap_singleton]
      by_cases last : count = node
      · simp [last]
      · have same : node < count + 1 ↔ node < count := by omega
        simp only [if_neg last, List.append_nil, same]

/-- The positions of a node are its segment. -/
theorem positions_filter (csr : Csr Nat) (node : Nat) :
    (csr.positions.filter fun occ => occ.1 = node).map Prod.snd = csr.segment node := by
  have own (i : Nat) : (((csr.segment i).map (Prod.mk i)).filter fun occ => occ.1 = node) =
      if i = node then (csr.segment node).map (Prod.mk node) else [] := by
    rw [List.filter_map]
    by_cases same : i = node
    · subst same
      simp [Function.comp_def]
    · simp [Function.comp_def, same]
  rw [Csr.positions, List.filter_flatMap]
  simp only [own]
  rw [flatMap_range_single]
  by_cases inside : node < csr.indptr.length - 1
  · rw [if_pos inside, List.map_map]
    exact List.map_id _
  · rw [if_neg inside, segment_beyond csr (by omega)]
    rfl

/-- A segment has the entries of its node. -/
theorem segment_perm (indexed : csr.Indexes addReverse (fun _ => true) df) (node : Nat) :
    (csr.segment node).Perm (nodeEntries addReverse df node) := by
  rw [← positions_filter, nodeEntries]
  exact (indexed.positions.filter _).map Prod.snd

/-- The entries that the kernel picks. -/
def recentEntries (csr : Csr Nat) (fanNum : Nat) (root : Root) : List (Entry Nat) :=
  (csr.temporal.recent fanNum root.1 root.2).map csr.entryAt

/-- They are the latest ones of the node before the time of the root. -/
theorem recentEntries_largest (indexed : csr.Indexes addReverse (fun _ => true) df) (fanNum : Nat)
    (root : Root) :
    Largest Entry.ts fanNum (earlier addReverse df root) (recentEntries csr fanNum root) := by
  have before : (csr.temporal.before root.1 root.2).map csr.entryAt =
      (csr.segment root.1).filter fun entry => entry.ts < root.2 := by
    rw [← map_rowPositions indexed, List.filter_map]
    rfl
  have recent : recentEntries csr fanNum root =
      ((csr.segment root.1).filter fun entry => entry.ts < root.2).reverse.take fanNum := by
    rw [← before, recentEntries, TemporalCsr.recent, List.map_take, List.map_reverse]
  have descending : ((csr.segment root.1).filter fun entry => entry.ts < root.2).reverse.Pairwise
      fun x y => y.ts ≤ x.ts :=
    List.pairwise_reverse.mpr ((indexed.sorted root.1).sublist List.filter_sublist)
  rw [recent]
  refine (Largest.take descending fanNum).perm ((List.reverse_perm _).trans ?_)
  exact (segment_perm indexed root.1).filter _

end Rows

/-! ## The layers -/

section Layers

variable {csr : Csr Nat} {addReverse : Bool} {df : List (CsvEdge Nat)}

/-- All layers on the tensors of an index. -/
theorem sampleLayers_walk (indexed : csr.Indexes addReverse (fun _ => true) df)
    (layers : List (Nat × LayerChoice)) {rootNodes ts : List Nat}
    (aligned : ts.length = rootNodes.length) :
    ∃ rets, sampleLayers csr.temporal layers rootNodes ts = some rets ∧
      Walk addReverse df layers (rootNodes.zip ts) rets := by
  induction layers generalizing rootNodes ts with
  | nil => exact ⟨[], rfl, .nil⟩
  | cons layer layers ih =>
      obtain ⟨fanNum, choice⟩ := layer
      obtain ⟨kept, run, sublist, uncut⟩ :=
        sampleTensors_spec indexed.sortedRow_temporal fanNum choice aligned
      let out := kept.map (Sample.neighbor csr.temporal)
      have all : (samples csr.temporal fanNum (rootNodes.zip ts)).map
            (Sample.neighbor csr.temporal) =
          (rootNodes.zip ts).zipIdx.flatMap fun root =>
            (recentEntries csr fanNum root.1).map (pickedNeighbor root.2 root.1.2) := by
        rw [samples_neighbor]
        refine List.flatMap_congr fun root _ => ?_
        rw [recentEntries, List.map_map]
        rfl
      have hop : Hop addReverse df (fanNum, choice) (rootNodes.zip ts) out := by
        refine ⟨recentEntries csr fanNum, recentEntries_largest indexed fanNum, ?_, fun off => ?_⟩
        · rw [← all]
          exact sublist.map _
        · rw [← all]
          exact congrArg (List.map (Sample.neighbor csr.temporal)) (uncut off)
      have srcs : (OutTensors.ofNeighbors out).outSrc.map Int.toNat = out.map Neighbor.src := by
        simp [OutTensors.ofNeighbors, OutTensors.ofSlots, Function.comp_def]
      have times : (OutTensors.ofNeighbors out).outts.map Int.toNat = out.map Neighbor.ts := by
        simp [OutTensors.ofNeighbors, OutTensors.ofSlots, Function.comp_def]
      have nextAligned : (ts ++ out.map Neighbor.ts).length =
          (rootNodes ++ out.map Neighbor.src).length := by
        simp [aligned]
      obtain ⟨rets, later, walk⟩ := ih nextAligned
      have next : (rootNodes ++ out.map Neighbor.src).zip (ts ++ out.map Neighbor.ts) =
          rootNodes.zip ts ++ out.map fun n => (n.src, n.ts) := by
        rw [List.zip_append aligned.symm, List.zip_map']
      rw [next] at walk
      have walked := Walk.cons hop walk
      rw [List.map_fst_zip aligned.ge, List.map_snd_zip aligned.le] at walked
      refine ⟨_, ?_, walked⟩
      rw [sampleLayers, run]
      simp only [Option.bind_eq_bind, Option.bind_some]
      rw [srcs, times, later]
      rfl

/-- On the graph that either program builds from an edge list, all layers of `sample_layer`
return the latest earlier edges of their roots, by the times as `float32`. -/
theorem sampleLayers_of_edges {τ : Type} [LinearOrder τ] [Inhabited τ] (argsort : ArgSort τ)
    (cast : Float32Cast τ) (addReverse : Bool) (intRoll : List Int) {df : List (CsvEdge τ)}
    (some_ : df ≠ []) (few : (if addReverse then 2 else 1) * df.length < 2 ^ 31)
    (layers : List (Nat × LayerChoice)) {rootNodes ts : List Nat}
    (aligned : ts.length = rootNodes.length) :
    (∃ csr, OriginalPreprocess.extFull argsort df = some csr ∧
      ∃ rets, sampleLayers (gpuTensors cast csr) layers rootNodes ts = some rets ∧
        Walk false (castTimes cast df) layers (rootNodes.zip ts) rets) ∧
    ∃ files, GenGraph.files argsort addReverse intRoll df = some files ∧
      ∃ rets, sampleLayers (gpuTensors cast files.extFull) layers rootNodes ts = some rets ∧
        Walk addReverse (castTimes cast df) layers (rootNodes.zip ts) rets := by
  obtain ⟨count, nodes, known⟩ := numNodes_eq_some some_
  obtain ⟨fewSingle, fewBoth⟩ := few_occurrences few
  have single := (buildCsr_indexes argsort known fewSingle).mapTime cast.mono
  have both := (buildCsr_indexes argsort known fewBoth).mapTime cast.mono
  rw [OriginalPreprocess.extFull, GenGraph.files, nodes]
  constructor
  · exact ⟨_, rfl, sampleLayers_walk single layers aligned⟩
  · exact ⟨_, rfl, sampleLayers_walk both layers aligned⟩

/-- Edges whose times are too late to be floats, with parallel ones. -/
def lateEdges : List (CsvEdge Nat) :=
  [⟨0, 1, 2 ^ 24⟩, ⟨1, 2, 2 ^ 24 + 1⟩, ⟨0, 2, 2 ^ 24 + 2⟩, ⟨0, 1, 2 ^ 24 + 3⟩]

/-- Two layers of the node 0: of its edges the first one is earlier than the root. -/
theorem sampleLayers_of_edges_late :
    (∃ csr, OriginalPreprocess.extFull stableSort lateEdges = some csr ∧
      ∃ rets, sampleLayers (gpuTensors wholeNumbers csr) [(1, inOrder none), (2, inOrder none)] [0]
          [wholeNumbers.bits (2 ^ 24 + 2)] = some rets ∧
        Walk false (castTimes wholeNumbers lateEdges) [(1, inOrder none), (2, inOrder none)]
          [(0, wholeNumbers.bits (2 ^ 24 + 2))] rets) ∧
    ∃ files, GenGraph.files stableSort true [] lateEdges = some files ∧
      ∃ rets, sampleLayers (gpuTensors wholeNumbers files.extFull)
          [(1, inOrder none), (2, inOrder none)] [0] [wholeNumbers.bits (2 ^ 24 + 2)] = some rets ∧
        Walk true (castTimes wholeNumbers lateEdges) [(1, inOrder none), (2, inOrder none)]
          [(0, wholeNumbers.bits (2 ^ 24 + 2))] rets :=
  sampleLayers_of_edges stableSort wholeNumbers true [] (List.cons_ne_nil _ _) (by decide)
    [(1, inOrder none), (2, inOrder none)] rfl

end Layers

end Dolphin.Sampler
