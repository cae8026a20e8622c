import Dolphin.Graph.SortedCsr
import Dolphin.Sampler.PartMaps

/-!
# The graph of an edge stream

`gen_graph.py` turns the edge list into a CSR: an edge is an entry in its
source's row, and with `--add_reverse` another one in its destination's. Each row
is sorted by time; entries of equal times may come in any order, so the graph is
a structure over the stream and not a function of it.
-/

namespace Dolphin.Graph

open Dolphin.Sampler

/-- The edge of an entry. -/
def TemporalCsr.eidAt (g : TemporalCsr) (p : Nat) : Nat := g.totaleid.getD p 0

/-- A CSR of a chronological stream with every edge in it. -/
structure StreamGraph (stream : EdgeStream) extends TemporalCsr where
  chronological : stream.time.Pairwise (· ≤ ·)
  first : indptr.head? = some 0
  last : indptr.getLast? = some totaleid.length
  rows : indptr.Pairwise (· ≤ ·)
  indicesLength : indices.length = totaleid.length
  sorted : ∀ row < indptr.length, ∀ p < totaleid.length, toTemporalCsr.rowStart row ≤ p →
    p + 1 < toTemporalCsr.rowEnd row → toTemporalCsr.tsAt p ≤ toTemporalCsr.tsAt (p + 1)
  entry : ∀ p < totaleid.length, toTemporalCsr.eidAt p < stream.eid.length ∧
    toTemporalCsr.tsAt p = stream.time.getD (toTemporalCsr.eidAt p) 0
  incident : ∀ row < indptr.length, ∀ p < totaleid.length, toTemporalCsr.InRow row p →
    (stream.src.getD (toTemporalCsr.eidAt p) 0, stream.dst.getD (toTemporalCsr.eidAt p) 0) =
        (row, indices.getD p 0) ∨
      (stream.src.getD (toTemporalCsr.eidAt p) 0, stream.dst.getD (toTemporalCsr.eidAt p) 0) =
        (indices.getD p 0, row)
  present : ∀ e < stream.eid.length, e ∈ totaleid

namespace StreamGraph

variable {stream : EdgeStream} (g : StreamGraph stream)

/-- A node with entries has a row, and the row is inside the tensors. -/
theorem rowEnd_le {row p : Nat} (inRow : g.InRow row p) :
    row + 1 < g.indptr.length ∧ g.rowEnd row ≤ g.totaleid.length :=
  TemporalCsr.rowEnd_le_length g.last g.rows inRow

/-- An entry belongs to one row only. -/
theorem row_unique {row other p : Nat} (inRow : g.InRow row p) (inOther : g.InRow other p) :
    row = other :=
  TemporalCsr.inRow_unique g.rows inRow inOther

/-- Every row is sorted by time. -/
theorem sortedRow (row : Nat) : g.SortedRow row := by
  intro p q start order inside
  induction q, order using Nat.le_induction with
  | base => exact Nat.le_refl _
  | succ q order ih =>
      have inRow : g.InRow row (q + 1) := ⟨by omega, inside⟩
      obtain ⟨bound, within⟩ := g.rowEnd_le inRow
      exact Nat.le_trans (ih (by omega))
        (g.sorted row (by omega) q (by omega) (by omega) inside)

theorem wellFormed : g.WellFormed := ⟨g.last, g.rows, g.indicesLength, g.sortedRow⟩

/-- Times do not decrease along the stream. -/
theorem time_mono (g : StreamGraph stream) {e i : Nat} (order : e ≤ i) (bound : i < stream.eid.length) :
    stream.time.getD e 0 ≤ stream.time.getD i 0 := by
  have length := stream.timeLength
  rcases Nat.eq_or_lt_of_le order with rfl | before
  · exact Nat.le_refl _
  · simp only [List.getD_eq_getElem?_getD]
    rw [List.getElem?_eq_getElem (by omega), List.getElem?_eq_getElem (by omega)]
    exact List.pairwise_iff_getElem.mp g.chronological _ _ _ _ before

/-- An entry before the time of an edge is an earlier edge. -/
theorem eidAt_lt {row p i : Nat} (inRow : g.InRow row p)
    (before : g.tsAt p < stream.time.getD i 0) : g.eidAt p < i := by
  have within := (g.rowEnd_le inRow).2
  have inside := inRow.2
  obtain ⟨known, time⟩ := g.entry p (by omega)
  by_contra later
  have ordered := g.time_mono (Nat.not_lt.mp later) known
  omega

end StreamGraph

end Dolphin.Graph
