import Dolphin.Graph.TemporalCsr

/-!
# The GPU sampler

`sample` runs one thread of `_CSRRowWiseSampleWithTsRecentKernel` for each root
and drops the slots it does not fill; `sampleLayer` feeds the roots and the
sampled nodes of a layer to the next one. The sample mask belongs to the
embedding buffer, which `train.py` does not create, and is zero everywhere.

What a root gets depends on nothing but the root. `hops` is that part of the
output, and all lemmas about whole samples go through `sample_hops`.
-/

namespace Dolphin.Sampler

open Dolphin.Graph

/-- A root: a node and the time at which its neighbours are wanted. -/
abbrev Root := Nat × Nat

/-- One filled slot: `out_src`, `out_dst`, `outts`, `outeid`, `outdts`. -/
structure Neighbor where
  src : Nat
  dst : Nat
  ts : Nat
  eid : Nat
  dts : Nat
  deriving DecidableEq

/-- What `sample` returns: the filled slots and its roots. -/
structure SampleRet where
  out : List Neighbor
  roots : List Root
  deriving DecidableEq

/-- The slots of one root; `none` is a slot that keeps its −1. -/
def sampleRow (g : TemporalCsr) (fanNum index : Nat) (root : Root) : List (Option Neighbor) :=
  let stop := g.recentEnd root.1 root.2
  let picks := min (stop - g.rowStart root.1) fanNum
  (List.range fanNum).map fun j =>
    if j < picks then
      some
        { src := g.indices.getD (stop - 1 - j) 0
          dst := index
          ts := g.totalts.getD (stop - 1 - j) 0
          eid := g.totaleid.getD (stop - 1 - j) 0
          dts := root.2 }
    else none

/-- `sample(sampleIDs, curts)` in the mode `normal`. -/
def sample (g : TemporalCsr) (fanNum : Nat) (roots : List Root) : SampleRet where
  out := (roots.zipIdx.flatMap fun root => sampleRow g fanNum root.2 root.1).filterMap id
  roots := roots

/-- `sample_layer(sampleIDs, curts)` with the fanouts of its layers; `cut_zombie` is off. -/
def sampleLayer (g : TemporalCsr) : List Nat → List Root → List SampleRet
  | [], _ => []
  | fanNum :: fanNums, roots =>
      let ret := sample g fanNum roots
      ret :: sampleLayer g fanNums (roots ++ ret.out.map fun n => (n.src, n.ts))

/-! ## What a root contributes -/

/-- A sampled node with its time and its edge. -/
def Neighbor.hop (n : Neighbor) : Nat × Nat × Nat := (n.src, n.ts, n.eid)

/-- The nodes, times and edges sampled for one root. -/
def hops (g : TemporalCsr) (fanNum : Nat) (root : Root) : List (Nat × Nat × Nat) :=
  let stop := g.recentEnd root.1 root.2
  (List.range (min (stop - g.rowStart root.1) fanNum)).map fun j =>
    (g.indices.getD (stop - 1 - j) 0, g.totalts.getD (stop - 1 - j) 0,
      g.totaleid.getD (stop - 1 - j) 0)

/-- Keeping the first `picks` of `fanNum` slots. -/
theorem filterMap_range {α : Type} (f : Nat → α) {picks fanNum : Nat} (bound : picks ≤ fanNum) :
    (((List.range fanNum).map fun j => if j < picks then some (f j) else none).filterMap id) =
      (List.range picks).map f := by
  obtain ⟨rest, rfl⟩ := Nat.exists_eq_add_of_le bound
  have filled : ((List.range picks).filterMap fun j => if j < picks then some (f j) else none) =
      (List.range picks).filterMap (some ∘ f) := by
    apply List.filterMap_congr
    intro j member
    simp [List.mem_range.mp member]
  rw [List.filterMap_map, List.range_add, List.filterMap_append, List.filterMap_map]
  simp only [Function.id_comp]
  rw [filled, List.filterMap_eq_map]
  simp

/-- The filled slots of a root are its hops, whatever its index is. -/
theorem sampleRow_hops (g : TemporalCsr) (fanNum index : Nat) (root : Root) :
    ((sampleRow g fanNum index root).filterMap id).map Neighbor.hop = hops g fanNum root := by
  unfold sampleRow hops
  simp only
  rw [filterMap_range _ (Nat.min_le_right _ _), List.map_map]
  rfl

/-- A sample is made root by root. -/
theorem sample_hops (g : TemporalCsr) (fanNum : Nat) (roots : List Root) :
    (sample g fanNum roots).out.map Neighbor.hop = roots.flatMap (hops g fanNum) := by
  unfold sample
  simp only
  generalize 0 = first
  induction roots generalizing first with
  | nil => rfl
  | cons root roots ih =>
      simp only [List.zipIdx_cons, List.flatMap_cons, List.filterMap_append, List.map_append]
      rw [sampleRow_hops, ih]

/-- The roots of the next layer, through the hops of the sample. -/
theorem sample_next (g : TemporalCsr) (fanNum : Nat) (roots : List Root) :
    ((sample g fanNum roots).out.map fun n => (n.src, n.ts)) =
      (roots.flatMap (hops g fanNum)).map fun hop => (hop.1, hop.2.1) := by
  rw [← sample_hops, List.map_map]
  rfl

/-- What a sample returns is what some root gets. -/
theorem sample_mem_hop {g : TemporalCsr} {fanNum : Nat} {roots : List Root} {hop : Nat × Nat × Nat} :
    (∃ n ∈ (sample g fanNum roots).out, n.hop = hop) ↔
      ∃ root ∈ roots, hop ∈ hops g fanNum root := by
  rw [← List.mem_map, sample_hops, List.mem_flatMap]

/-- The edges all layers return for one root: its own hops in every layer, and
what the later layers return for the nodes it reaches. -/
def reachedEids (g : TemporalCsr) : List Nat → Root → List Nat
  | [], _ => []
  | fanNum :: fanNums, root =>
      (hops g fanNum root).map (fun hop => hop.2.2) ++ reachedEids g fanNums root ++
        (hops g fanNum root).flatMap fun hop => reachedEids g fanNums (hop.1, hop.2.1)

/-- The edges of a sample over layers, root by root. -/
theorem mem_sampleLayer_eids {g : TemporalCsr} {fanNums : List Nat} {roots : List Root}
    {e : Nat} : (∃ ret ∈ sampleLayer g fanNums roots, ∃ n ∈ ret.out, n.eid = e) ↔
      ∃ root ∈ roots, e ∈ reachedEids g fanNums root := by
  induction fanNums generalizing roots with
  | nil => simp [sampleLayer, reachedEids]
  | cons fanNum fanNums ih =>
      have layer : (∃ n ∈ (sample g fanNum roots).out, n.eid = e) ↔
          ∃ root ∈ roots, e ∈ (hops g fanNum root).map fun hop => hop.2.2 := by
        constructor
        · rintro ⟨n, sampled, rfl⟩
          obtain ⟨root, source, hop⟩ := sample_mem_hop.mp ⟨n, sampled, rfl⟩
          exact ⟨root, source, List.mem_map.mpr ⟨n.hop, hop, rfl⟩⟩
        · rintro ⟨root, source, member⟩
          obtain ⟨hop, reached, rfl⟩ := List.mem_map.mp member
          obtain ⟨n, sampled, own⟩ := sample_mem_hop.mpr ⟨root, source, reached⟩
          exact ⟨n, sampled, congrArg (fun hop => hop.2.2) own⟩
      simp only [sampleLayer, List.mem_cons, exists_eq_or_imp, layer, ih, sample_next,
        List.mem_append, List.mem_map, List.mem_flatMap, reachedEids]
      constructor
      · rintro (⟨root, source, own⟩ | ⟨root, source | ⟨hop, ⟨from_, source, reached⟩, rfl⟩, later⟩)
        · exact ⟨root, source, Or.inl (Or.inl own)⟩
        · exact ⟨root, source, Or.inl (Or.inr later)⟩
        · exact ⟨from_, source, Or.inr ⟨hop, reached, later⟩⟩
      · rintro ⟨root, source, (own | later) | ⟨hop, reached, later⟩⟩
        · exact Or.inl ⟨root, source, own⟩
        · exact Or.inr ⟨root, Or.inl source, later⟩
        · exact Or.inr ⟨_, Or.inr ⟨hop, ⟨root, source, reached⟩, rfl⟩, later⟩

end Dolphin.Sampler
