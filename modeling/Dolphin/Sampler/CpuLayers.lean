import Dolphin.Sampler.MergeThreads

/-!
# Layers and calls of the CPU sampler

A layer whose numbers `int`s hold gives the block of its roots taken thread by thread,
after any earlier calls. The chunks of the threads are computed with floats; up to
`2 ^ 24` roots they are large enough for the order thread by thread to be the order of the
roots.
-/

namespace Dolphin.Sampler.ParallelSampler

open Dolphin.Graph Dolphin.Tensor Dolphin.Semantics

variable {g : TemporalCsr} {sampler : ParallelSampler}

/-! ## One layer of the CPU sampler -/

/-- The roots thread by thread. -/
def threadRoots (sampler : ParallelSampler) (roots : List Root) : List Root :=
  (StaticSchedule.threadOrder (sampler.chunk roots.length) sampler.numThreads
    roots.length).map fun j => roots.getD j (0, 0)

@[simp] theorem threadRoots_length (sampler : ParallelSampler) (roots : List Root) :
    (sampler.threadRoots roots).length = roots.length := by
  rw [threadRoots, List.length_map, StaticSchedule.threadOrder_length sampler.threaded]

theorem map_getD_range (roots : List Root) :
    (List.range roots.length).map (fun j => roots.getD j (0, 0)) = roots := by
  apply List.ext_getElem
  · simp
  · intro j _ bound
    simp [bound]

/-- Each root has one thread. -/
theorem threadRoots_perm (sampler : ParallelSampler) (roots : List Root) :
    (sampler.threadRoots roots).Perm roots := by
  have order : (StaticSchedule.threadOrder (sampler.chunk roots.length) sampler.numThreads
      roots.length).Perm (List.range roots.length) :=
    StaticSchedule.threadOrder_perm sampler.threaded
  have mapped := order.map fun j => roots.getD j (0, 0)
  rwa [map_getD_range] at mapped

/-- One thread, or chunks that are large enough, keep the order of the roots. -/
theorem threadRoots_eq {roots : List Root}
    (covers : sampler.numThreads = 1 ∨
      roots.length ≤ sampler.chunk roots.length * sampler.numThreads) :
    sampler.threadRoots roots = roots := by
  have order : StaticSchedule.threadOrder (sampler.chunk roots.length) sampler.numThreads
      roots.length = List.range roots.length := by
    rcases covers with one | enough
    · rw [one]
      exact StaticSchedule.threadOrder_one _ _
    · exact StaticSchedule.threadOrder_of_le sampler.threaded enough
  rw [threadRoots, order, map_getD_range]

/-- Up to `2 ^ 24` roots the chunks are large enough. -/
theorem le_chunk_mul {count : Nat} (small : count ≤ 2 ^ 24) :
    count ≤ sampler.chunk count * sampler.numThreads :=
  BinaryFloat.le_ceilDiv_mul sampler.threaded small

/-- The numbers of a layer that `int`s hold. -/
structure Fits (sampler : ParallelSampler) (neighs count sampled : Nat) : Prop where
  chunk : sampler.chunk count < intLimit
  reserve : count / sampler.numThreads * neighs < intLimit
  size : count + sampled < intLimit

/-- The pointers between two layers. -/
structure Ready (g : TemporalCsr) (ptr : TsPtr) : Prop where
  first : ptr.first = g.indptr.dropLast
  second : Pointed g ptr.second

theorem ready_reset (g : TemporalCsr) : Ready g (TsPtr.reset g) := ⟨rfl, pointed_reset g⟩

/-- The roots of one thread. -/
def rootsOf (sampler : ParallelSampler) (roots : List Root) (tid : Nat) : List Root :=
  (StaticSchedule.iterations (sampler.chunk roots.length) sampler.numThreads roots.length
    tid).map fun j => roots.getD j (0, 0)

theorem flatten_rootsOf (sampler : ParallelSampler) (roots : List Root) :
    ((List.range sampler.numThreads).map (sampler.rootsOf roots)).flatten =
      sampler.threadRoots roots := by
  rw [threadRoots, StaticSchedule.threadOrder, List.map_flatMap, List.flatMap_def]
  rfl

/-- The vectors of a thread when the pointers cover all roots. -/
theorem runThread_eq (wellFormed : sampler.g.WellFormed) {second : List Nat}
    (pointed : Pointed sampler.g second) {roots : List Root}
    (covers : ∀ i < roots.length, ∀ root, roots[i]? = some root →
      Covers sampler.g root.1 root.2 (second.getD root.1 0)) (neighs tid : Nat) :
    sampler.runThread neighs ⟨sampler.g.indptr.dropLast, second⟩ roots tid =
      workerOf sampler.g neighs (sampler.rootsOf roots tid) := by
  have own : ∀ root ∈ sampler.rootsOf roots tid,
      Covers sampler.g root.1 root.2 (second.getD root.1 0) := by
    intro root member
    obtain ⟨j, mine, rfl⟩ := List.mem_map.mp member
    have bound := (StaticSchedule.mem_iterations.mp mine).1
    exact covers j bound _ (by simp [bound])
  have run := foldl_sampleRoot wellFormed pointed neighs own [] 0
  rw [Nat.zero_add, List.nil_append, rootsOf, List.foldl_map, List.length_map] at run
  rw [workerOf, rootsOf, List.length_map]
  exact run

/-- A layer that fits gives the block of the roots taken thread by thread, and leaves the
pointers ready for the next layer. -/
theorem sampleLayer_eq (wellFormed : sampler.g.WellFormed) {ptr : TsPtr}
    (ready : Ready sampler.g ptr) (neighs : Nat) {roots : List Root} {order : List Nat}
    (perm : order.Perm (List.range roots.length)) :
    ∃ next, Ready sampler.g next ∧
      (sampler.Fits neighs roots.length
          (sampledFrom sampler.g neighs 0 (sampler.threadRoots roots)).length →
        sampler.sampleLayer neighs order ptr roots = some (next, mergedBlock roots
          (sampledFrom sampler.g neighs 0 (sampler.threadRoots roots)))) ∧
      (¬sampler.Fits neighs roots.length
          (sampledFrom sampler.g neighs 0 (sampler.threadRoots roots)).length →
        sampler.sampleLayer neighs order ptr roots = none) := by
  obtain ⟨first, second⟩ := ptr
  obtain rfl : first = sampler.g.indptr.dropLast := ready.first
  have known : ∀ i ∈ order, i < roots.length :=
    fun i member => List.mem_range.mp (perm.mem_iff.mp member)
  obtain ⟨pointed, -, covers⟩ := ready.second.updateTsPtr wellFormed known
  have all : ∀ i < roots.length, ∀ root, roots[i]? = some root → Covers sampler.g root.1 root.2
      ((updateTsPtr sampler.g roots order second).getD root.1 0) :=
    fun i bound => covers i (perm.mem_iff.mpr (List.mem_range.mpr bound))
  have workers : (List.range sampler.numThreads).map (sampler.runThread neighs
      ⟨sampler.g.indptr.dropLast, updateTsPtr sampler.g roots order second⟩ roots) =
      ((List.range sampler.numThreads).map (sampler.rootsOf roots)).map
        (workerOf sampler.g neighs) := by
    rw [List.map_map]
    exact List.map_congr_left fun tid _ => runThread_eq wellFormed pointed all neighs tid
  have flat := flatten_rootsOf sampler roots
  have merged := combineCoo_eq (g := sampler.g) neighs
    (flat ▸ sampler.threadRoots_length roots)
  rw [flat] at merged
  have size : (mergedBlock roots (sampledFrom sampler.g neighs 0
      (sampler.threadRoots roots))).nodes.length = roots.length +
        (sampledFrom sampler.g neighs 0 (sampler.threadRoots roots)).length := by
    simp [mergedBlock]
  refine ⟨⟨sampler.g.indptr.dropLast, updateTsPtr sampler.g roots order second⟩,
    ⟨rfl, pointed⟩, fun fits => ?_, fun overflow => ?_⟩
  · simp only [sampleLayer, workers, merged, size, if_pos fits.size]
    rw [if_pos ⟨fits.chunk, fits.reserve⟩]
  · simp only [sampleLayer, workers, merged, size]
    split
    case isTrue held => exact if_neg fun total => overflow ⟨held.1, held.2, total⟩
    case isFalse => rfl

/-! ## Earlier calls -/

/-- A layer that returns leaves the pointers ready. -/
theorem Ready.sampleLayer (wellFormed : sampler.g.WellFormed) {ptr next : TsPtr}
    (ready : Ready sampler.g ptr) {neighs : Nat} {roots : List Root} {order : List Nat}
    (perm : order.Perm (List.range roots.length)) {ret : TemporalGraphBlock}
    (returned : sampler.sampleLayer neighs order ptr roots = some (next, ret)) :
    Ready sampler.g next := by
  obtain ⟨after, afterReady, fitting, overflowing⟩ :=
    sampleLayer_eq wellFormed ready neighs perm
  by_cases fits : sampler.Fits neighs roots.length
      (sampledFrom sampler.g neighs 0 (sampler.threadRoots roots)).length
  · have same := (fitting fits).symm.trans returned
    obtain rfl := congrArg Prod.fst (Option.some.inj same)
    exact afterReady
  · rw [overflowing fits] at returned
    cases returned

/-- So do all layers of a call. -/
theorem Ready.sampleLayers (wellFormed : sampler.g.WellFormed) {schedule : Schedule}
    {fanouts : List Nat} {layer : Nat} {ptr next : TsPtr} (ready : Ready sampler.g ptr)
    {roots : List Root} {rets : List TemporalGraphBlock}
    (returned : sampler.sampleLayers schedule fanouts layer ptr roots = some (next, rets)) :
    Ready sampler.g next := by
  induction fanouts generalizing layer ptr roots rets with
  | nil =>
      obtain rfl : ptr = next := congrArg Prod.fst (Option.some.inj returned)
      exact ready
  | cons neighs fanouts ih =>
      rw [ParallelSampler.sampleLayers] at returned
      obtain ⟨⟨between, ret⟩, first, rest⟩ := Option.bind_eq_some_iff.mp returned
      obtain ⟨⟨last, later⟩, layers, done⟩ := Option.bind_eq_some_iff.mp rest
      obtain rfl : last = next := congrArg Prod.fst (Option.some.inj done)
      exact ih (ready.sampleLayer wellFormed (schedule.perm _ _) first) layers

/-- So do calls one after the other. -/
theorem Ready.calls (wellFormed : sampler.g.WellFormed) {calls : List (Schedule × List Root)}
    {start ptr : TsPtr} (ready : Ready sampler.g start)
    (returned : calls.foldlM (fun ptr call =>
      (sampler.sample call.1 ptr call.2).map Prod.fst) start = some ptr) :
    Ready sampler.g ptr := by
  induction calls generalizing start with
  | nil =>
      obtain rfl : start = ptr := Option.some.inj returned
      exact ready
  | cons call calls ih =>
      rw [List.foldlM_cons] at returned
      obtain ⟨next, first, rest⟩ := Option.bind_eq_some_iff.mp returned
      obtain ⟨result, layers, rfl⟩ := Option.map_eq_some_iff.mp first
      exact ih (ready.sampleLayers wellFormed layers) rest

theorem ready_history (wellFormed : sampler.g.WellFormed) {calls : List (Schedule × List Root)}
    {ptr : TsPtr} (earlier : sampler.history calls = some ptr) : Ready sampler.g ptr :=
  (ready_reset sampler.g).calls wellFormed earlier

end Dolphin.Sampler.ParallelSampler
