import Dolphin.Sampler.CpuLayers

/-!
# The two samplers agree

A layer of the CPU sampler is the layer of the GPU sampler exactly when no `int` overflows
and the threads take the roots in an order in which every root finds the neighbours of the
root it is numbered as.
-/

namespace Dolphin.Sampler.ParallelSampler

open Dolphin.Graph Dolphin.Tensor Dolphin.Semantics

variable {g : TemporalCsr} {sampler : ParallelSampler}

/-! ## Two lists of roots with the same layer -/

/-- What is sampled for a root: nodes, edges, times and time deltas. -/
def picked (g : TemporalCsr) (neighs : Nat) (root : Root) : List (Nat × Nat × Nat × Nat) :=
  (g.recent neighs root.1 root.2).map fun p =>
    (g.indices.getD p 0, g.totaleid.getD p 0, g.tsAt p, root.2 - g.tsAt p)

/-- What a layer says about a neighbour, apart from the index of its source. -/
def edgeData (neighbor : Neighbor) : Nat × Nat × Nat × Nat × Nat :=
  (neighbor.dst, neighbor.src, neighbor.eid, neighbor.ts, neighbor.dts - neighbor.ts)

theorem map_edgeData_sampledFrom (neighs first : Nat) (roots : List Root) :
    (sampledFrom g neighs first roots).map edgeData =
      numbered first (roots.map (picked g neighs)) := by
  induction roots generalizing first with
  | nil => rfl
  | cons root roots ih =>
      rw [sampledFrom_cons, List.map_append, ih, List.map_cons, numbered_cons, List.map_map,
        picked, List.map_map]
      rfl

theorem length_sampledFrom (neighs first : Nat) (roots : List Root) :
    (sampledFrom g neighs first roots).length = (roots.flatMap (picked g neighs)).length := by
  induction roots generalizing first with
  | nil => rfl
  | cons root roots ih =>
      rw [sampledFrom_cons, List.flatMap_cons, List.length_append, List.length_append, ih,
        picked, List.length_map, List.length_map]

/-- The layers of two samples of the same roots are equal if their neighbours' data are. -/
theorem layer_eq_iff (roots : List Root) (neighbors others : List Neighbor) :
    (genBlock ⟨neighbors, roots⟩).layer = (genBlock ⟨others, roots⟩).layer ↔
      neighbors.map edgeData = others.map edgeData := by
  have rebuilt : ∀ neighbors : List Neighbor,
      neighbors.zipIdx.map (fun n => n.1.edge roots.length n.2) =
        (neighbors.map edgeData).zipIdx.map fun n =>
          ⟨n.1.1, n.2 + roots.length, n.1.2.1, n.1.2.2.1, n.1.2.2.2.1, n.1.2.2.2.2⟩ := by
    intro neighbors
    rw [List.zipIdx_map, List.map_map]
    rfl
  have read : ∀ neighbors : List Neighbor,
      (neighbors.zipIdx.map fun n => n.1.edge roots.length n.2).map
        (fun e => (e.dst, e.neighbor, e.eid, e.ts, e.dt)) = neighbors.map edgeData := by
    intro neighbors
    rw [List.map_map]
    change neighbors.zipIdx.map (edgeData ∘ Prod.fst) = _
    rw [← List.map_map, List.zipIdx_map_fst]
  rw [layer_genBlock, layer_genBlock, Layer.mk.injEq, and_iff_right rfl]
  constructor
  · intro same
    rw [← read neighbors, same, read others]
  · intro same
    rw [rebuilt, same, ← rebuilt]

/-- A list of roots in another order gives the same layer if every root finds the
neighbours of the root in its place. -/
theorem layer_sampledFrom_iff (neighs : Nat) {roots others : List Root}
    (aligned : others.length = roots.length) :
    (genBlock ⟨sampledFrom g neighs 0 others, roots⟩).layer =
        (genBlock ⟨sampledFrom g neighs 0 roots, roots⟩).layer ↔
      others.map (picked g neighs) = roots.map (picked g neighs) := by
  rw [layer_eq_iff, map_edgeData_sampledFrom, map_edgeData_sampledFrom]
  refine ⟨numbered_injective ?_, fun same => by rw [same]⟩
  rw [List.length_map, List.length_map, aligned]

/-! ## All layers -/

/-- The roots of each layer, with its fanout. -/
def layerRoots (g : TemporalCsr) : List Nat → List Root → List (Nat × List Root)
  | [], _ => []
  | neighs :: fanouts, roots =>
      (neighs, roots) :: layerRoots g fanouts
        (roots ++ (roots.flatMap (picked g neighs)).map fun data => (data.1, data.2.2.1))

/-- When a layer of the CPU sampler is that of the GPU sampler: `int`s hold its numbers, and
thread by thread each root finds the neighbours of the root in its place. -/
structure InStep (sampler : ParallelSampler) (neighs : Nat) (roots : List Root) : Prop where
  fits : sampler.Fits neighs roots.length (roots.flatMap (picked sampler.g neighs)).length
  order : (sampler.threadRoots roots).map (picked sampler.g neighs) =
    roots.map (picked sampler.g neighs)

/-- The block of the CPU sampler as a block of DGL. -/
theorem toDglBlock_mergedBlock (roots : List Root) (neighbors : List Neighbor) :
    toDglBlock (mergedBlock roots neighbors) = genBlock ⟨neighbors, roots⟩ := by
  ext1
  · rfl
  · rfl
  · simp [toDglBlock, mergedBlock, genBlock]
  · rfl
  · rfl
  · rfl
  · simp [toDglBlock, mergedBlock, genBlock, List.zipWith_map]
  · rfl

/-- The nodes and times sampled for some roots. -/
theorem map_next_sampledFrom (neighs first : Nat) (roots : List Root) :
    (sampledFrom g neighs first roots).map (fun n => (n.src, n.ts)) =
      (roots.flatMap (picked g neighs)).map fun data => (data.1, data.2.2.1) := by
  induction roots generalizing first with
  | nil => rfl
  | cons root roots ih =>
      rw [sampledFrom_cons, List.map_append, ih, List.flatMap_cons, List.map_append, picked,
        List.map_map, List.map_map]
      rfl

/-- The roots of the next layer on the CPU. -/
theorem mergedBlock_next (neighs : Nat) (roots others : List Root) :
    (mergedBlock roots (sampledFrom g neighs 0 others)).nodes.zip
        (mergedBlock roots (sampledFrom g neighs 0 others)).ts =
      roots ++ (others.flatMap (picked g neighs)).map fun data => (data.1, data.2.2.1) := by
  have own : (roots.map Prod.fst).zip (roots.map Prod.snd) = roots := by
    rw [List.zip_map']
    exact List.map_id' roots
  rw [mergedBlock, List.zip_append (by simp), own, List.zip_map', map_next_sampledFrom]

/-- The GPU sampler samples the roots in their order. -/
theorem sample_eq (wellFormed : g.WellFormed) (neighs : Nat) (roots : List Root) :
    Sampler.sample g neighs roots = ⟨sampledFrom g neighs 0 roots, roots⟩ :=
  congrArg (fun out => SampleRet.mk out roots) (sample_out wellFormed.sorted neighs roots)

/-- The layers of a block and those behind it. -/
theorem map_layers_cons (block : TemporalGraphBlock)
    (rest : Option (TsPtr × List TemporalGraphBlock)) (layer : Layer) (layers : List Layer) :
    ((rest.bind fun result => some (result.1, block :: result.2)).map fun result =>
        result.2.map fun ret => (toDglBlock ret).layer) = some (layer :: layers) ↔
      (toDglBlock block).layer = layer ∧
        (rest.map fun result => result.2.map fun ret => (toDglBlock ret).layer) =
          some layers := by
  cases rest with
  | none => simp
  | some result => simp

/-- All layers agree exactly when each of them does. -/
theorem sampleLayers_agree_iff (wellFormed : sampler.g.WellFormed) (schedule : Schedule)
    (fanouts : List Nat) (layer : Nat) {ptr : TsPtr} (ready : Ready sampler.g ptr)
    (roots : List Root) :
    ((sampler.sampleLayers schedule fanouts layer ptr roots).map fun result =>
        result.2.map fun ret => (toDglBlock ret).layer) =
        some ((Sampler.sampleLayer sampler.g fanouts roots).map fun ret =>
          (genBlock ret).layer) ↔
      ∀ entry ∈ layerRoots sampler.g fanouts roots, sampler.InStep entry.1 entry.2 := by
  induction fanouts generalizing layer ptr roots with
  | nil => simp [sampleLayers, Sampler.sampleLayer, layerRoots]
  | cons neighs fanouts ih =>
      obtain ⟨next, nextReady, fitting, overflowing⟩ := sampleLayer_eq wellFormed ready neighs
        (schedule.perm layer roots.length)
      have gpu : Sampler.sampleLayer sampler.g (neighs :: fanouts) roots =
          ⟨sampledFrom sampler.g neighs 0 roots, roots⟩ ::
            Sampler.sampleLayer sampler.g fanouts (roots ++
              (roots.flatMap (picked sampler.g neighs)).map
                fun data => (data.1, data.2.2.1)) := by
        rw [Sampler.sampleLayer, sample_eq wellFormed, map_next_sampledFrom]
      have size : (sampledFrom sampler.g neighs 0 (sampler.threadRoots roots)).length =
          (roots.flatMap (picked sampler.g neighs)).length := by
        rw [length_sampledFrom]
        exact ((threadRoots_perm sampler roots).flatMap_right _).length_eq
      rw [size] at fitting overflowing
      rw [gpu, layerRoots, List.forall_mem_cons, List.map_cons, sampleLayers]
      by_cases fits : sampler.Fits neighs roots.length
          (roots.flatMap (picked sampler.g neighs)).length
      · rw [fitting fits]
        refine (map_layers_cons _ _ _ _).trans ?_
        rw [toDglBlock_mergedBlock, layer_sampledFrom_iff neighs
          (sampler.threadRoots_length roots), mergedBlock_next]
        constructor
        · rintro ⟨order, rest⟩
          rw [List.flatMap_def, order, ← List.flatMap_def, ih _ nextReady] at rest
          exact ⟨⟨fits, order⟩, rest⟩
        · rintro ⟨inStep, rest⟩
          refine ⟨inStep.order, ?_⟩
          rw [List.flatMap_def, inStep.order, ← List.flatMap_def, ih _ nextReady]
          exact rest
      · rw [overflowing fits]
        constructor
        · intro returned
          cases returned
        · intro inStep
          exact absurd inStep.1.fits fits

/-- Up to `2 ^ 24` roots, or with one thread, only the `int`s matter. -/
theorem InStep.of_small {neighs : Nat} {roots : List Root}
    (fits : sampler.Fits neighs roots.length (roots.flatMap (picked sampler.g neighs)).length)
    (small : sampler.numThreads = 1 ∨ roots.length ≤ 2 ^ 24) :
    sampler.InStep neighs roots :=
  ⟨fits, congrArg (List.map _) (threadRoots_eq (small.imp_right le_chunk_mul))⟩

/-- After any earlier calls and for any order of the critical sections, the two samplers
give the same layers exactly when every layer is in step. -/
theorem sample_agrees_iff (wellFormed : sampler.g.WellFormed)
    (calls : List (Schedule × List Root)) {ptr : TsPtr}
    (earlier : sampler.history calls = some ptr) (schedule : Schedule) (roots : List Root) :
    ((sampler.sample schedule ptr roots).map fun result =>
        result.2.map fun ret => (toDglBlock ret).layer) =
        some ((Sampler.sampleLayer sampler.g sampler.numNeighbors roots).map fun ret =>
          (genBlock ret).layer) ↔
      ∀ entry ∈ layerRoots sampler.g sampler.numNeighbors roots,
        sampler.InStep entry.1 entry.2 :=
  sampleLayers_agree_iff wellFormed schedule sampler.numNeighbors 0
    (ready_history wellFormed earlier) roots

/-- The threads run the critical sections as they come. -/
def Schedule.asTheyCome : Schedule where
  order := fun _ count => List.range count
  perm := fun _ _ => List.Perm.refl _

/-- Two nodes, the second with one entry. -/
def twoRows : TemporalCsr := ⟨[0, 3, 4], [1, 0, 1, 0], [1, 2, 2, 1], [0, 1, 2, 3]⟩

theorem twoRows_wellFormed : twoRows.WellFormed where
  last := rfl
  rows := by decide
  indices := rfl
  sorted := by
    intro row p q start order inside
    match row with
    | 0 =>
        have bound : q < 3 := inside
        obtain rfl | rfl | rfl : q = 0 ∨ q = 1 ∨ q = 2 := by omega
        all_goals revert order; revert p; decide
    | 1 =>
        have low : 3 ≤ p := start
        have bound : q < 4 := inside
        obtain ⟨rfl, rfl⟩ : p = 3 ∧ q = 3 := by omega
        exact Nat.le_refl _
    | row + 2 => exact absurd inside (by simp [TemporalCsr.rowEnd, twoRows])

/-- Two threads on two layers. -/
def twoThreads : ParallelSampler := ⟨twoRows, 2, by decide, [2, 1]⟩

/-- An earlier call has moved the pointer of the first node behind what a root may have. -/
theorem sample_agrees_iff_twoThreads :
    twoThreads.history [(Schedule.asTheyCome, [(0, 3)])] = some ⟨[0, 3], [2, 3]⟩ ∧
      ((twoThreads.sample Schedule.asTheyCome ⟨[0, 3], [2, 3]⟩ [(1, 2), (0, 3), (0, 2)]).map
          fun result => result.2.map fun ret => (toDglBlock ret).layer) =
        some ((Sampler.sampleLayer twoRows [2, 1] [(1, 2), (0, 3), (0, 2)]).map fun ret =>
          (genBlock ret).layer) := by
  have earlier : twoThreads.history [(Schedule.asTheyCome, [(0, 3)])] =
      some ⟨[0, 3], [2, 3]⟩ := by
    decide +kernel
  refine ⟨earlier, (sample_agrees_iff twoRows_wellFormed _ earlier _ _).mpr ?_⟩
  have layers : layerRoots twoThreads.g twoThreads.numNeighbors [(1, 2), (0, 3), (0, 2)] =
      [(2, [(1, 2), (0, 3), (0, 2)]),
        (1, [(1, 2), (0, 3), (0, 2), (0, 1), (1, 2), (0, 2), (1, 1)])] := by
    decide
  rw [layers, List.forall_mem_cons, List.forall_mem_singleton]
  exact ⟨.of_small ⟨by decide +kernel, by decide, by decide⟩ (Or.inr (by decide)),
    .of_small ⟨by decide +kernel, by decide, by decide⟩ (Or.inr (by decide))⟩

/-! ## Too many roots -/

/-- A root whose neighbours are found behind all the others, which have none. -/
def lateRoots (count : Nat) : List Root := List.replicate count (0, 0) ++ [(0, 1)]

/-- If the last root is not one of the last thread's, the last thread's last root is in its
place. -/
theorem not_inStep_lateRoots {neighs count i : Nat} (idle : picked sampler.g neighs (0, 0) = [])
    (found : picked sampler.g neighs (0, 1) ≠ [])
    (filled : i ∈ StaticSchedule.iterations (sampler.chunk (count + 1)) sampler.numThreads
      (count + 1) (sampler.numThreads - 1))
    (elsewhere : count ∉ StaticSchedule.iterations (sampler.chunk (count + 1))
      sampler.numThreads (count + 1) (sampler.numThreads - 1)) :
    ¬sampler.InStep neighs (lateRoots count) := by
  intro inStep
  have length : (lateRoots count).length = count + 1 := by simp [lateRoots]
  have order := inStep.order
  rw [threadRoots, length] at order
  obtain ⟨j, last⟩ := Option.isSome_iff_exists.mp
    (List.getLast?_isSome.mpr (List.ne_nil_of_mem filled))
  have own := List.mem_of_getLast? last
  have place : (StaticSchedule.threadOrder (sampler.chunk (count + 1)) sampler.numThreads
      (count + 1)).getLast? = some j := by
    have threads : List.range sampler.numThreads =
        List.range (sampler.numThreads - 1) ++ [sampler.numThreads - 1] := by
      rw [← List.range_succ, Nat.succ_eq_add_one, Nat.sub_add_cancel sampler.threaded]
    rw [StaticSchedule.threadOrder, threads, List.flatMap_append, List.flatMap_singleton,
      List.getLast?_append, last]
    rfl
  have before : j < count := by
    have bound := (StaticSchedule.mem_iterations.mp own).1
    have different : j ≠ count := by
      rintro rfl
      exact elsewhere own
    omega
  have root : (lateRoots count).getD j (0, 0) = (0, 0) := by
    simp [lateRoots, List.getElem?_append_left, before]
  have ends := congrArg List.getLast? order
  rw [List.getLast?_map, List.getLast?_map, List.getLast?_map, place, Option.map_some, root,
    lateRoots, List.getLast?_concat, Option.map_some, Option.map_some, idle] at ends
  exact found (Option.some.inj ends).symm

/-- One node with an edge to itself at time 0. -/
def oneEdge : ParallelSampler :=
  ⟨⟨[0, 1], [0], [0], [0]⟩, 2, by decide, [1]⟩

theorem oneEdge_wellFormed : oneEdge.g.WellFormed where
  last := rfl
  rows := by decide
  indices := rfl
  sorted := by
    intro row p q start order inside
    match row with
    | 0 =>
        have bound : q < 1 := inside
        obtain ⟨rfl, rfl⟩ : p = 0 ∧ q = 0 := by omega
        exact Nat.le_refl _
    | row + 1 => exact absurd inside (by simp [TemporalCsr.rowEnd, oneEdge])

/-- As a float, `2 ^ 24 + 1` roots are `2 ^ 24`, and two chunks leave one root for a third
one, which the first thread takes: the roots of the second thread are numbered too high. -/
theorem lateRoots_disagree :
    ¬((oneEdge.sample Schedule.asTheyCome (TsPtr.reset oneEdge.g) (lateRoots (2 ^ 24))).map
          fun result => result.2.map fun ret => (toDglBlock ret).layer) =
        some ((Sampler.sampleLayer oneEdge.g [1] (lateRoots (2 ^ 24))).map fun ret =>
          (genBlock ret).layer) := by
  have chunk : oneEdge.chunk (2 ^ 24 + 1) = 2 ^ 23 := by decide +kernel
  have late : ¬oneEdge.InStep 1 (lateRoots (2 ^ 24)) := by
    refine not_inStep_lateRoots (i := 2 ^ 23) (by decide) (by decide) ?_ ?_
    · rw [chunk, StaticSchedule.mem_iterations]
      decide
    · rw [chunk, StaticSchedule.mem_iterations]
      decide
  intro agreed
  have inStep := (sampleLayers_agree_iff oneEdge_wellFormed Schedule.asTheyCome [1] 0
    (ready_reset oneEdge.g) (lateRoots (2 ^ 24))).mp agreed
  exact late (inStep _ List.mem_cons_self)

end Dolphin.Sampler.ParallelSampler
