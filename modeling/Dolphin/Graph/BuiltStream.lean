import Dolphin.Graph.CsrFaithful
import Dolphin.Graph.StreamGraph

/-!
# The built graph of a chronological stream

What `gen_graph.py` builds from a chronological edge list is a graph of its stream, so that
what holds of every graph of a stream holds of the built one. The bounds are never
negative, and the samplers read them as they are.
-/

namespace Dolphin.Graph

open Dolphin.Sampler

/-- The columns of the edge list. -/
def csvStream (df : List (CsvEdge Nat)) : EdgeStream where
  src := df.map CsvEdge.src
  dst := df.map CsvEdge.dst
  time := df.map CsvEdge.time
  eid := List.range df.length
  srcLength := (List.length_map _).trans List.length_range.symm
  dstLength := (List.length_map _).trans List.length_range.symm
  timeLength := (List.length_map _).trans List.length_range.symm
  eidRow := congrArg List.range List.length_range.symm

/-- Its nodes are those of the rows. -/
theorem csvStream_nodes {df : List (CsvEdge Nat)} {bound : Nat}
    (known : ∀ row ∈ df, row.src < bound ∧ row.dst < bound) :
    (∀ v ∈ (csvStream df).src, v < bound) ∧ ∀ v ∈ (csvStream df).dst, v < bound :=
  ⟨List.forall_mem_map.mpr fun row member => (known row member).1,
    List.forall_mem_map.mpr fun row member => (known row member).2⟩

/-! ## Converted times -/

section Converted

variable {τ σ : Type} (f : τ → σ)

/-- An edge with its time converted. -/
def CsvEdge.mapTime (row : CsvEdge τ) : CsvEdge σ := ⟨row.src, row.dst, f row.time⟩

/-- An entry with its time converted. -/
def Entry.mapTime (entry : Entry τ) : Entry σ := ⟨entry.index, f entry.ts, entry.eid⟩

/-- The arrays with the times converted. -/
def Csr.mapTime (csr : Csr τ) : Csr σ := ⟨csr.indptr, csr.indices, csr.ts.map f, csr.eid⟩

theorem occurrences_mapTime (addReverse : Bool) (keep : Nat → Bool) (df : List (CsvEdge τ)) :
    occurrences addReverse keep (df.map (CsvEdge.mapTime f)) =
      (occurrences addReverse keep df).map (Prod.map id (Entry.mapTime f)) := by
  rw [occurrences, occurrences, List.zipIdx_map, List.flatMap_map, List.map_flatMap]
  refine List.flatMap_congr ?_
  rintro ⟨row, idx⟩ -
  simp only [rowOccurrences, Prod.map_apply, id_eq]
  split
  · cases addReverse <;> rfl
  · rfl

theorem Csr.entries_mapTime (csr : Csr τ) :
    (csr.mapTime f).entries = csr.entries.map (Entry.mapTime f) := by
  rw [entries, entries, List.map_map, mapTime, List.zip_map_left, List.zip_map_right, List.map_map]
  rfl

theorem Csr.segment_mapTime (csr : Csr τ) (node : Nat) :
    (csr.mapTime f).segment node = (csr.segment node).map (Entry.mapTime f) := by
  rw [segment, segment, entries_mapTime, slice, slice, List.map_drop, List.map_take]
  rfl

theorem Csr.positions_mapTime (csr : Csr τ) :
    (csr.mapTime f).positions = csr.positions.map (Prod.map id (Entry.mapTime f)) := by
  rw [positions, positions, List.map_flatMap]
  refine List.flatMap_congr fun node _ => ?_
  rw [segment_mapTime, List.map_map, List.map_map]
  rfl

/-- Arrays with times that are converted in order are an index of the converted edges. -/
theorem Csr.Indexes.mapTime [LE τ] [LE σ] {csr : Csr τ} {addReverse : Bool} {keep : Nat → Bool}
    {df : List (CsvEdge τ)} {f : τ → σ} (mono : ∀ ⦃x y⦄, x ≤ y → f x ≤ f y)
    (indexed : csr.Indexes addReverse keep df) :
    (csr.mapTime f).Indexes addReverse keep (df.map (CsvEdge.mapTime f)) where
  first := indexed.first
  last := indexed.last
  bounds := indexed.bounds
  indices := indexed.indices
  ts := (List.length_map f).trans indexed.ts
  covered := by
    rw [positions_mapTime, entries_mapTime, ← indexed.covered, List.map_map, List.map_map]
    rfl
  positions := by
    rw [positions_mapTime, occurrences_mapTime]
    exact indexed.positions.map _
  sorted := by
    intro node
    rw [segment_mapTime]
    exact List.pairwise_map.mpr ((indexed.sorted node).imp fun order => mono order)

end Converted

/-! ## The arrays as a graph -/

namespace Csr

/-- The saved arrays as a temporal graph. -/
def temporal (csr : Csr Nat) : TemporalCsr where
  indptr := csr.indptr.map Int.toNat
  indices := csr.indices
  totalts := csr.ts
  totaleid := csr.eid

/-- What the arrays have at a position. -/
def entryAt (csr : Csr Nat) (p : Nat) : Entry Nat :=
  ⟨csr.indices.getD p 0, csr.ts.getD p 0, csr.eid.getD p 0⟩

theorem rowStart_temporal (csr : Csr Nat) (row : Nat) :
    csr.temporal.rowStart row = (csr.indptr.getD row 0).toNat :=
  List.getD_map csr.indptr (0 : Int) Int.toNat

theorem rowEnd_temporal (csr : Csr Nat) (row : Nat) :
    csr.temporal.rowEnd row = (csr.indptr.getD (row + 1) 0).toNat :=
  List.getD_map csr.indptr (0 : Int) Int.toNat

namespace Indexes

variable {csr : Csr Nat} {addReverse : Bool} {keep : Nat → Bool} {df : List (CsvEdge Nat)}

theorem entries_getElem? (indexed : csr.Indexes addReverse keep df) {p : Nat}
    (inside : p < csr.eid.length) : csr.entries[p]? = some (csr.entryAt p) := by
  have inIndices : p < csr.indices.length := indexed.indices ▸ inside
  have inTs : p < csr.ts.length := indexed.ts ▸ inside
  simp [entries, entryAt, inIndices, inTs, inside]

theorem last_temporal (indexed : csr.Indexes addReverse keep df) :
    csr.temporal.indptr.getLast? = some csr.temporal.totaleid.length := by
  rw [temporal, List.getLast?_map, indexed.last]
  rfl

theorem rows_temporal (indexed : csr.Indexes addReverse keep df) :
    csr.temporal.indptr.Pairwise (· ≤ ·) :=
  List.pairwise_map.mpr (indexed.bounds.imp fun order => Int.toNat_le_toNat order)

/-- The segment of a node has the entries of its row. -/
theorem segment_getElem? (indexed : csr.Indexes addReverse keep df) {row p : Nat}
    (inRow : csr.temporal.InRow row p) :
    (csr.segment row)[p - csr.temporal.rowStart row]? = some (csr.entryAt p) := by
  have inside := (TemporalCsr.rowEnd_le_length indexed.last_temporal indexed.rows_temporal inRow).2
  obtain ⟨start, stop⟩ := inRow
  have position : csr.temporal.rowStart row + (p - csr.temporal.rowStart row) = p := by omega
  rw [segment, slice, ← rowStart_temporal, ← rowEnd_temporal, List.getElem?_drop, position,
    List.getElem?_take_of_lt stop]
  exact indexed.entries_getElem? (Nat.lt_of_lt_of_le stop inside)

/-- A position of a row is one of the positions of its node. -/
theorem mem_positions (indexed : csr.Indexes addReverse keep df) {row p : Nat}
    (inRow : csr.temporal.InRow row p) : (row, csr.entryAt p) ∈ csr.positions := by
  have bound := (TemporalCsr.rowEnd_le_length indexed.last_temporal indexed.rows_temporal inRow).1
  rw [temporal, List.length_map] at bound
  refine List.mem_flatMap.mpr ⟨row, List.mem_range.mpr (Nat.lt_sub_of_add_lt bound), ?_⟩
  exact List.mem_map_of_mem (List.mem_of_getElem? (indexed.segment_getElem? inRow))

end Indexes

end Csr

/-- An occurrence is a row of the edge list, from its source or from its destination. -/
theorem mem_occurrences {addReverse : Bool} {keep : Nat → Bool} {df : List (CsvEdge Nat)}
    {node : Nat} {entry : Entry Nat} (member : (node, entry) ∈ occurrences addReverse keep df) :
    ∃ row, df[entry.eid]? = some row ∧ entry.ts = row.time ∧
      ((row.src, row.dst) = (node, entry.index) ∨ (row.src, row.dst) = (entry.index, node)) := by
  obtain ⟨⟨row, idx⟩, source, own⟩ := List.mem_flatMap.mp member
  have known := List.mem_zipIdx_iff_getElem?.mp source
  unfold rowOccurrences at own
  split at own
  · rcases List.mem_cons.mp own with same | reverse
    · obtain ⟨rfl, rfl⟩ := Prod.mk.inj same
      exact ⟨row, known, rfl, .inl rfl⟩
    · split at reverse
      · obtain ⟨rfl, rfl⟩ := Prod.mk.inj (List.mem_singleton.mp reverse)
        exact ⟨row, known, rfl, .inr rfl⟩
      · exact absurd reverse List.not_mem_nil
  · exact absurd own List.not_mem_nil

/-- The columns of the stream at a row. -/
theorem csvStream_getD {df : List (CsvEdge Nat)} {e : Nat} {row : CsvEdge Nat}
    (known : df[e]? = some row) :
    (csvStream df).src.getD e 0 = row.src ∧ (csvStream df).dst.getD e 0 = row.dst ∧
      (csvStream df).time.getD e 0 = row.time := by
  simp [csvStream, known]

namespace Csr.Indexes

variable {csr : Csr Nat} {addReverse : Bool} {keep : Nat → Bool} {df : List (CsvEdge Nat)}

/-- Every position is an occurrence. -/
theorem exists_occurrence (indexed : csr.Indexes addReverse keep df) {p : Nat}
    (inside : p < csr.eid.length) :
    ∃ node, (node, csr.entryAt p) ∈ occurrences addReverse keep df := by
  have member := List.mem_of_getElem? (indexed.entries_getElem? inside)
  rw [← indexed.covered] at member
  obtain ⟨⟨node, entry⟩, position, rfl⟩ := List.mem_map.mp member
  exact ⟨node, indexed.positions.mem_iff.mp position⟩

/-- An entry has the time of its edge. -/
theorem entry_temporal (indexed : csr.Indexes addReverse keep df) {p : Nat}
    (inside : p < csr.eid.length) :
    csr.temporal.eidAt p < (csvStream df).eid.length ∧
      csr.temporal.tsAt p = (csvStream df).time.getD (csr.temporal.eidAt p) 0 := by
  obtain ⟨node, occurrence⟩ := indexed.exists_occurrence inside
  obtain ⟨row, known, time, -⟩ := mem_occurrences occurrence
  obtain ⟨bound, -⟩ := List.getElem?_eq_some_iff.mp known
  refine ⟨?_, time.trans (csvStream_getD known).2.2.symm⟩
  rw [csvStream, List.length_range]
  exact bound

/-- An entry of a row is an edge of its node. -/
theorem incident_temporal (indexed : csr.Indexes addReverse keep df) {row p : Nat}
    (inRow : csr.temporal.InRow row p) :
    ((csvStream df).src.getD (csr.temporal.eidAt p) 0,
        (csvStream df).dst.getD (csr.temporal.eidAt p) 0) = (row, csr.temporal.indices.getD p 0) ∨
      ((csvStream df).src.getD (csr.temporal.eidAt p) 0,
        (csvStream df).dst.getD (csr.temporal.eidAt p) 0) = (csr.temporal.indices.getD p 0, row) := by
  have occurrence := indexed.positions.mem_iff.mp (indexed.mem_positions inRow)
  obtain ⟨edge, known, -, ends⟩ := mem_occurrences occurrence
  obtain ⟨src, dst, -⟩ := csvStream_getD known
  change ((csvStream df).src.getD (csr.entryAt p).eid 0,
    (csvStream df).dst.getD (csr.entryAt p).eid 0) = (row, (csr.entryAt p).index) ∨
      ((csvStream df).src.getD (csr.entryAt p).eid 0,
        (csvStream df).dst.getD (csr.entryAt p).eid 0) = ((csr.entryAt p).index, row)
  rwa [src, dst]

/-- The rows are sorted by time. -/
theorem sortedRow_temporal (indexed : csr.Indexes addReverse keep df) (row : Nat) :
    csr.temporal.SortedRow row := by
  intro p q start order stop
  rcases Nat.eq_or_lt_of_le order with rfl | before
  · exact Nat.le_refl _
  · obtain ⟨ownBound, own⟩ := List.getElem?_eq_some_iff.mp
      (indexed.segment_getElem? ⟨start, before.trans stop⟩)
    obtain ⟨nextBound, next⟩ := List.getElem?_eq_some_iff.mp
      (indexed.segment_getElem? ⟨start.trans order, stop⟩)
    have ordered := List.pairwise_iff_getElem.mp (indexed.sorted row) _ _ ownBound nextBound
      (by omega)
    rw [own, next] at ordered
    exact ordered

/-- An index of all edges of a chronological edge list is a graph of its stream. -/
def streamGraph (indexed : csr.Indexes addReverse (fun _ => true) df)
    (chronological : (df.map CsvEdge.time).Pairwise (· ≤ ·)) : StreamGraph (csvStream df) where
  toTemporalCsr := csr.temporal
  chronological := chronological
  first := (List.head?_map ..).trans (congrArg (Option.map Int.toNat) indexed.first)
  last := indexed.last_temporal
  rows := indexed.rows_temporal
  indicesLength := indexed.indices
  sorted := fun row _ p _ start stop =>
    indexed.sortedRow_temporal row p (p + 1) start p.le_succ stop
  entry := fun _ inside => indexed.entry_temporal inside
  incident := fun _ _ _ _ inRow => indexed.incident_temporal inRow
  present := by
    intro e known
    have times := indexed.count (known.trans_eq List.length_range)
    refine List.count_pos_iff.mp ?_
    rw [temporal, times]
    split <;> decide

end Csr.Indexes

/-- What both programs build from a chronological edge list is a graph of its stream, as long
as there are fewer than 2 ^ 31 entries. -/
theorem built_streamGraph (argsort : ArgSort Nat) (addReverse : Bool) (intRoll : List Int)
    {df : List (CsvEdge Nat)} (some_ : df ≠ [])
    (few : (if addReverse then 2 else 1) * df.length < 2 ^ 31)
    (chronological : (df.map CsvEdge.time).Pairwise (· ≤ ·)) :
    (∃ csr, OriginalPreprocess.extFull argsort df = some csr ∧
      ∃ g : StreamGraph (csvStream df), g.toTemporalCsr = csr.temporal) ∧
    ∃ files, GenGraph.files argsort addReverse intRoll df = some files ∧
      ∃ g : StreamGraph (csvStream df), g.toTemporalCsr = files.extFull.temporal := by
  obtain ⟨count, nodes, known⟩ := numNodes_eq_some some_
  obtain ⟨fewSingle, fewBoth⟩ := few_occurrences few
  rw [OriginalPreprocess.extFull, GenGraph.files, nodes]
  constructor
  · exact ⟨_, rfl, (buildCsr_indexes argsort known fewSingle).streamGraph chronological, rfl⟩
  · exact ⟨_, rfl, (buildCsr_indexes argsort known fewBoth).streamGraph chronological, rfl⟩

/-- A parallel edge and a self-loop. -/
theorem built_streamGraph_three :
    (∃ csr, OriginalPreprocess.extFull stableSort [⟨0, 2, 3⟩, ⟨0, 2, 3⟩, ⟨0, 0, 5⟩] = some csr ∧
      ∃ g : StreamGraph (csvStream [⟨0, 2, 3⟩, ⟨0, 2, 3⟩, ⟨0, 0, 5⟩]),
        g.toTemporalCsr = csr.temporal) ∧
    ∃ files, GenGraph.files stableSort true [] [⟨0, 2, 3⟩, ⟨0, 2, 3⟩, ⟨0, 0, 5⟩] = some files ∧
      ∃ g : StreamGraph (csvStream [⟨0, 2, 3⟩, ⟨0, 2, 3⟩, ⟨0, 0, 5⟩]),
        g.toTemporalCsr = files.extFull.temporal :=
  built_streamGraph stableSort true [] (List.cons_ne_nil _ _) (by decide) (by decide)

end Dolphin.Graph
