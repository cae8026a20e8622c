import Dolphin.Sampler.DglBlocks
import Dolphin.Sampler.RecentKernel
import Dolphin.Sampler.TsPointers

/-!
# The threads of the CPU sampler and their merge

A thread adds to its vectors, root by root, the most recent entries before the root's time,
under the number of the root in the thread. `combine_coo` shifts these numbers by the roots
of the threads before, so that the merged block is the one `gen_block` makes of the roots
taken thread by thread.
-/

namespace Dolphin.Sampler.ParallelSampler

open Dolphin.Graph Dolphin.Tensor Dolphin.Semantics

variable {g : TemporalCsr}

/-- The most recent neighbours of some roots, numbered from `first`. -/
def sampledFrom (g : TemporalCsr) (neighs first : Nat) (roots : List Root) : List Neighbor :=
  (roots.zipIdx first).flatMap fun root =>
    (g.recent neighs root.1.1 root.1.2).map (neighborAt g root.2 root.1.2)

theorem sampledFrom_cons (neighs first : Nat) (root : Root) (roots : List Root) :
    sampledFrom g neighs first (root :: roots) =
      (g.recent neighs root.1 root.2).map (neighborAt g first root.2) ++
        sampledFrom g neighs (first + 1) roots := by
  rw [sampledFrom, List.zipIdx_cons, List.flatMap_cons]
  rfl

theorem sampledFrom_append (neighs first : Nat) (roots others : List Root) :
    sampledFrom g neighs first (roots ++ others) =
      sampledFrom g neighs first roots ++
        sampledFrom g neighs (first + roots.length) others := by
  rw [sampledFrom, List.zipIdx_append, List.flatMap_append, Nat.add_comm first]
  rfl

/-- The same neighbour of a root with another number. -/
def shiftDst (count : Nat) (neighbor : Neighbor) : Neighbor :=
  { neighbor with dst := neighbor.dst + count }

/-- The number of the first root only shifts the numbers of the roots. -/
theorem sampledFrom_shift (neighs first count : Nat) (roots : List Root) :
    sampledFrom g neighs (first + count) roots =
      (sampledFrom g neighs first roots).map (shiftDst count) := by
  induction roots generalizing first with
  | nil => rfl
  | cons root roots ih =>
      rw [sampledFrom_cons, sampledFrom_cons, List.map_append, List.map_map, ← ih (first + 1),
        Nat.add_right_comm]
      rfl

/-! ## A thread -/

/-- The vectors with some neighbours in them. -/
def Worker.of (neighbors : List Neighbor) (outNode : Nat) : Worker where
  row := neighbors.map Neighbor.dst
  col := List.range neighbors.length
  eid := neighbors.map Neighbor.eid
  ts := neighbors.map Neighbor.ts
  dts := neighbors.map fun neighbor => neighbor.dts - neighbor.ts
  nodes := neighbors.map Neighbor.src
  outNode := outNode

theorem addNeighbor_of (neighbors : List Neighbor) (outNode k srcTs rowId : Nat) :
    addNeighbor g k srcTs rowId (Worker.of neighbors outNode) =
      Worker.of (neighbors ++ [neighborAt g rowId srcTs k]) outNode := by
  ext1 <;> simp [addNeighbor, Worker.of, neighborAt, List.range_succ, TemporalCsr.tsAt]

/-- The loop takes the first entries before the root's time. -/
theorem pickRecent_of (nts outNode : Nat) (ks : List Nat) (curNei : Nat)
    (neighbors : List Neighbor) :
    pickRecent g nts ks curNei (Worker.of neighbors outNode) =
      Worker.of (neighbors ++ ((ks.filter fun k => g.tsAt k < nts).take curNei).map
        (neighborAt g outNode nts)) outNode := by
  induction ks generalizing curNei neighbors with
  | nil => simp [pickRecent]
  | cons k ks ih =>
      cases curNei with
      | zero => simp [pickRecent]
      | succ curNei =>
          rw [pickRecent]
          by_cases early : g.tsAt k < nts
          · have number : (Worker.of neighbors outNode).outNode = outNode := rfl
            rw [if_pos early, number, addNeighbor_of, ih,
              List.filter_cons_of_pos (by simpa using early), List.take_succ_cons,
              List.map_cons, List.append_assoc]
            rfl
          · rw [if_neg early, ih, List.filter_cons_of_neg (by simpa using early)]

/-- Up to a pointer that covers a time, the row has all its entries before the time. -/
theorem Covers.before {n ts p : Nat} (covers : Covers g n ts p) (inRow : g.InRow n p) :
    (List.range' (g.rowStart n) (p + 1 - g.rowStart n)).filter (fun k => g.tsAt k < ts) =
      g.before n ts := by
  have low := inRow.1
  have high := inRow.2
  have split : g.rowPositions n = List.range' (g.rowStart n) (p + 1 - g.rowStart n) ++
      List.range' (p + 1) (g.rowEnd n - (p + 1)) := by
    have next : g.rowStart n + (p + 1 - g.rowStart n) = p + 1 := by omega
    have joined := @List.range'_append_1 (g.rowStart n) (p + 1 - g.rowStart n)
      (g.rowEnd n - (p + 1))
    rw [next] at joined
    rw [joined, TemporalCsr.rowPositions]
    congr 1
    omega
  have behind : (List.range' (p + 1) (g.rowEnd n - (p + 1))).filter
      (fun k => decide (g.tsAt k < ts)) = [] := by
    rw [List.filter_eq_nil_iff]
    intro q member
    have bounds := List.mem_range'_1.mp member
    have late := covers q ⟨by omega, by omega⟩ (by omega)
    simpa using late
  rw [TemporalCsr.before, split, List.filter_append, behind, List.append_nil]

/-- The body of the sampling loop adds the most recent neighbours of the root. -/
theorem sampleRoot_of (wellFormed : g.WellFormed) {second : List Nat}
    (pointed : Pointed g second) {root : Root}
    (covers : Covers g root.1 root.2 (second.getD root.1 0)) (neighs outNode : Nat)
    (neighbors : List Neighbor) :
    sampleRoot g neighs ⟨g.indptr.dropLast, second⟩ (Worker.of neighbors outNode) root =
      Worker.of (neighbors ++ (g.recent neighs root.1 root.2).map
        (neighborAt g outNode root.2)) (outNode + 1) := by
  obtain ⟨n, ts⟩ := root
  rcases Nat.lt_or_ge (g.rowStart n) (g.rowEnd n) with nonempty | empty
  · have inRow := pointed.inRow n nonempty
    have filled : ¬(second.getD n 0 = g.indptr.dropLast.getD n 0 ∧
        g.rowEnd n = second.getD n 0) := by
      have high := inRow.2
      omega
    simp only [sampleRoot, if_pos filled]
    rw [pickRecent_of, reset_getD (row_known nonempty), List.filter_reverse,
      covers.before inRow]
    rfl
  · have none_ : g.recent neighs n ts = [] := by
      simp [TemporalCsr.recent, TemporalCsr.before, TemporalCsr.rowPositions,
        Nat.sub_eq_zero_of_le empty]
    simp only [sampleRoot, not_not.mpr (pointed.empty_eq wellFormed empty), if_false, none_,
      List.map_nil, List.append_nil]
    rfl

/-- A thread that has sampled some roots. -/
theorem foldl_sampleRoot (wellFormed : g.WellFormed) {second : List Nat}
    (pointed : Pointed g second) (neighs : Nat) {roots : List Root}
    (covers : ∀ root ∈ roots, Covers g root.1 root.2 (second.getD root.1 0))
    (neighbors : List Neighbor) (outNode : Nat) :
    roots.foldl (sampleRoot g neighs ⟨g.indptr.dropLast, second⟩)
        (Worker.of neighbors outNode) =
      Worker.of (neighbors ++ sampledFrom g neighs outNode roots) (outNode + roots.length) := by
  induction roots generalizing neighbors outNode with
  | nil => simp [sampledFrom]
  | cons root roots ih =>
      obtain ⟨here, rest⟩ := List.forall_mem_cons.mp covers
      rw [List.foldl_cons, sampleRoot_of wellFormed pointed here, ih rest, sampledFrom_cons,
        List.append_assoc, List.length_cons, Nat.add_right_comm, Nat.add_assoc outNode]

/-! ## The merge -/

/-- The block of some neighbours behind the roots. -/
def mergedBlock (roots : List Root) (neighbors : List Neighbor) : TemporalGraphBlock where
  row := neighbors.map Neighbor.dst
  col := (List.range neighbors.length).map (· + roots.length)
  eid := neighbors.map Neighbor.eid
  ts := roots.map Prod.snd ++ neighbors.map Neighbor.ts
  dts := List.replicate roots.length 0 ++
    neighbors.map fun neighbor => neighbor.dts - neighbor.ts
  nodes := roots.map Prod.fst ++ neighbors.map Neighbor.src
  dimIn := roots.length + neighbors.length
  dimOut := roots.length

/-- What each thread brings to the merge. -/
def workerOf (g : TemporalCsr) (neighs : Nat) (roots : List Root) : Worker :=
  Worker.of (sampledFrom g neighs 0 roots) roots.length

/-- Data that does not depend on the number of the root is laid out thread by thread. -/
theorem flatten_sampled {β : Type} (neighs first : Nat) (rootss : List (List Root))
    (f : Neighbor → β) (keeps : ∀ count neighbor, f (shiftDst count neighbor) = f neighbor) :
    (rootss.map fun roots => (sampledFrom g neighs 0 roots).map f).flatten =
      (sampledFrom g neighs first rootss.flatten).map f := by
  have moved : ∀ start roots, (sampledFrom g neighs start roots).map f =
      (sampledFrom g neighs 0 roots).map f := by
    intro start roots
    have shifted := sampledFrom_shift (g := g) neighs 0 start roots
    rw [Nat.zero_add] at shifted
    rw [shifted, List.map_map]
    exact List.map_congr_left fun neighbor _ => keeps start neighbor
  induction rootss generalizing first with
  | nil => rfl
  | cons roots rootss ih =>
      rw [List.map_cons, List.flatten_cons, List.flatten_cons, sampledFrom_append,
        List.map_append, moved first, ih (first + roots.length)]

/-- The shifted rows are the numbers of the roots taken thread by thread. -/
theorem flatten_rows (neighs first : Nat) (rootss : List (List Root)) :
    (((rootss.map (workerOf g neighs)).zip
        (cumsum first (0 :: (rootss.map (workerOf g neighs)).map Worker.outNode))).map
      fun part => part.1.row.map (· + part.2)).flatten =
      (sampledFrom g neighs first rootss.flatten).map Neighbor.dst := by
  induction rootss generalizing first with
  | nil => rfl
  | cons roots rootss ih =>
      have own : (workerOf g neighs roots).row.map (· + first) =
          (sampledFrom g neighs first roots).map Neighbor.dst := by
        have shifted := sampledFrom_shift (g := g) neighs 0 first roots
        rw [Nat.zero_add] at shifted
        rw [shifted, List.map_map]
        simp [workerOf, Worker.of, shiftDst, Function.comp_def]
      have rest := ih (first + roots.length)
      rw [List.flatten_cons, sampledFrom_append, List.map_append, ← own, ← rest]
      rfl

/-- The shifted columns count the edges of all threads. -/
theorem flatten_cols (neighs first count : Nat) (rootss : List (List Root)) :
    (((rootss.map (workerOf g neighs)).zip
        (cumsum first (0 :: (rootss.map (workerOf g neighs)).map fun w => w.col.length))).map
      fun part => part.1.col.map (· + part.2 + count)).flatten =
      (List.range' first (sampledFrom g neighs 0 rootss.flatten).length).map (· + count) := by
  induction rootss generalizing first with
  | nil => rfl
  | cons roots rootss ih =>
      have width : (workerOf g neighs roots).col.length =
          (sampledFrom g neighs 0 roots).length := by
        simp [workerOf, Worker.of]
      have own : (workerOf g neighs roots).col.map (· + first + count) =
          (List.range' first (sampledFrom g neighs 0 roots).length).map (· + count) := by
        rw [List.range'_eq_map_range, List.map_map]
        simp [workerOf, Worker.of, Function.comp_def, Nat.add_comm first]
      have total : (sampledFrom g neighs 0 (roots ++ rootss.flatten)).length =
          (sampledFrom g neighs 0 roots).length +
            (sampledFrom g neighs 0 rootss.flatten).length := by
        rw [sampledFrom_append, List.length_append, sampledFrom_shift, List.length_map]
      have rest := ih (first + (workerOf g neighs roots).col.length)
      rw [width] at rest
      rw [List.flatten_cons, total, ← List.range'_append_1, List.map_append, ← own, ← rest,
        ← width]
      rfl

/-- The threads' vectors copied behind what a vector has before it is resized. -/
theorem copyAll_resize (kept : List Nat) {xss : List (List Nat)} {lengths : List Nat}
    (sized : xss.map List.length = lengths) :
    copyAll kept.length (resize kept (lengths.sum + kept.length)) xss
        (cumsum 0 (0 :: lengths)) = kept ++ xss.flatten := by
  have whole : resize kept (lengths.sum + kept.length) =
      kept ++ List.replicate lengths.sum 0 := by
    rw [resize, List.take_of_length_le (Nat.le_add_left _ _), Nat.add_sub_cancel]
  have room : (resize kept (lengths.sum + kept.length)).length =
      kept.length + 0 + lengths.sum := by
    rw [whole, List.length_append, List.length_replicate, Nat.add_zero]
  rw [copyAll_cumsum sized room, whole, Nat.add_zero, List.take_left]

/-- Where each thread's vector has `f` of its neighbours. -/
theorem copyAll_sampled (neighs : Nat) (kept : List Nat) (rootss : List (List Root))
    (column : Worker → List Nat) (f : Neighbor → Nat)
    (own : ∀ neighbors outNode, column (Worker.of neighbors outNode) = neighbors.map f)
    (keeps : ∀ count neighbor, f (shiftDst count neighbor) = f neighbor) :
    copyAll kept.length
        (resize kept (((rootss.map (workerOf g neighs)).map fun w => w.col.length).sum +
          kept.length))
        ((rootss.map (workerOf g neighs)).map column)
        (cumsum 0 (0 :: (rootss.map (workerOf g neighs)).map fun w => w.col.length)) =
      kept ++ (sampledFrom g neighs 0 rootss.flatten).map f := by
  have columns : (rootss.map (workerOf g neighs)).map column =
      rootss.map fun roots => (sampledFrom g neighs 0 roots).map f := by
    rw [List.map_map]
    exact List.map_congr_left fun roots _ => own _ _
  have sized : ((rootss.map (workerOf g neighs)).map column).map List.length =
      (rootss.map (workerOf g neighs)).map fun w => w.col.length := by
    rw [columns, List.map_map, List.map_map]
    refine List.map_congr_left fun roots _ => ?_
    simp [workerOf, Worker.of]
  rw [copyAll_resize kept sized, columns, flatten_sampled neighs 0 rootss f keeps]

/-- The threads' vectors of edge indices, shifted by what the threads before have. -/
theorem copyAll_shifted (neighs : Nat) (rootss : List (List Root)) (column : Worker → List Nat)
    (move : Nat → Nat → Nat) (counts : List Nat)
    (own : ∀ roots ∈ rootss, (column (workerOf g neighs roots)).length =
      (workerOf g neighs roots).col.length) (aligned : rootss.length ≤ counts.length) :
    copyAll 0
        (resize [] ((rootss.map (workerOf g neighs)).map fun w => w.col.length).sum)
        (((rootss.map (workerOf g neighs)).zip counts).map fun part =>
          (column part.1).map (move part.2))
        (cumsum 0 (0 :: (rootss.map (workerOf g neighs)).map fun w => w.col.length)) =
      (((rootss.map (workerOf g neighs)).zip counts).map fun part =>
          (column part.1).map (move part.2)).flatten := by
  refine copyAll_resize [] ?_
  have widths : (fun part : Worker × Nat => ((column part.1).map (move part.2)).length) =
      (fun worker => (column worker).length) ∘ Prod.fst := by
    funext part
    exact List.length_map _
  rw [List.map_map]
  change List.map (fun part : Worker × Nat => ((column part.1).map (move part.2)).length) _ = _
  rw [widths, ← List.map_map, List.map_fst_zip (by simpa using aligned), List.map_map,
    List.map_map]
  exact List.map_congr_left own

/-- `combine_coo` makes the block of the roots taken thread by thread. -/
theorem combineCoo_eq (neighs : Nat) {roots : List Root} {rootss : List (List Root)}
    (count : rootss.flatten.length = roots.length) :
    combineCoo (rootBlock roots) (rootss.map (workerOf g neighs)) =
      mergedBlock roots (sampledFrom g neighs 0 rootss.flatten) := by
  have roots_ : (rootBlock roots).nodes.length = roots.length := List.length_map _
  have times : (rootBlock roots).ts.length = roots.length := List.length_map _
  have deltas : (rootBlock roots).dts.length = roots.length := List.length_replicate
  have total : (cumsum 0 (0 :: (rootss.map (workerOf g neighs)).map
      fun w => w.col.length)).getLastD 0 =
        ((rootss.map (workerOf g neighs)).map fun w => w.col.length).sum := by
    rw [cumsum_getLastD, Nat.zero_add]
  have numbers : (cumsum 0 (0 :: (rootss.map (workerOf g neighs)).map
      Worker.outNode)).getLastD 0 = roots.length := by
    have lengths : (rootss.map (workerOf g neighs)).map Worker.outNode =
        rootss.map List.length := by
      rw [List.map_map]
      rfl
    rw [cumsum_getLastD, Nat.zero_add, lengths, ← List.length_flatten, count]
  have nodes := copyAll_sampled (g := g) neighs (rootBlock roots).nodes rootss Worker.nodes
    Neighbor.src (fun _ _ => rfl) (fun _ _ => rfl)
  have ts := copyAll_sampled (g := g) neighs (rootBlock roots).ts rootss Worker.ts
    Neighbor.ts (fun _ _ => rfl) (fun _ _ => rfl)
  have dts := copyAll_sampled (g := g) neighs (rootBlock roots).dts rootss Worker.dts
    (fun n => n.dts - n.ts) (fun _ _ => rfl) (fun _ _ => rfl)
  have eid := copyAll_sampled (g := g) neighs (rootBlock roots).eid rootss Worker.eid
    Neighbor.eid (fun _ _ => rfl) (fun _ _ => rfl)
  have row := copyAll_shifted (g := g) neighs rootss Worker.row (fun first v => v + first)
    (cumsum 0 (0 :: (rootss.map (workerOf g neighs)).map Worker.outNode))
    (fun roots _ => by simp [workerOf, Worker.of]) (by simp)
  have col := copyAll_shifted (g := g) neighs rootss Worker.col
    (fun first v => v + first + roots.length)
    (cumsum 0 (0 :: (rootss.map (workerOf g neighs)).map fun w => w.col.length))
    (fun roots _ => rfl) (by simp)
  rw [flatten_rows] at row
  rw [flatten_cols, ← List.range_eq_range'] at col
  rw [roots_] at nodes
  rw [times] at ts
  rw [deltas] at dts
  ext1
  · simp only [combineCoo, total]
    exact row
  · simp only [combineCoo, total, roots_]
    exact col
  · simp only [combineCoo, total]
    exact eid
  · simp only [combineCoo, total, roots_]
    exact ts
  · simp only [combineCoo, total, roots_]
    exact dts
  · simp only [combineCoo, total, roots_]
    exact nodes
  · simp only [combineCoo, total, roots_, nodes]
    simp [rootBlock, mergedBlock]
  · simp only [combineCoo, numbers]
    rfl

end Dolphin.Sampler.ParallelSampler
