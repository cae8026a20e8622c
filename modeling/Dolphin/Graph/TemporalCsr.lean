import Mathlib.Data.List.Basic

/-!
# Temporal graphs in CSR form

The entries of a node are the positions `indptr[node], …, indptr[node + 1] - 1` of
the other three tensors. A timestamp is the bit pattern of its float: the GPU
kernels compare it as an integer, and for times that are not negative the two
orders agree.
-/

namespace Dolphin.Graph

/-- The tensors of `Sampler_GPU`. -/
structure TemporalCsr where
  indptr : List Nat
  indices : List Nat
  totalts : List Nat
  totaleid : List Nat

namespace TemporalCsr

variable (g : TemporalCsr)

/-- `in_ptr[row]`. -/
def rowStart (row : Nat) : Nat := g.indptr.getD row 0

/-- `in_ptr[row + 1]`. -/
def rowEnd (row : Nat) : Nat := g.indptr.getD (row + 1) 0

/-- The binary search of the sampling kernels for the last entry before `ts`: the
entry at which the loop breaks, and `left` when it ends. `stop` is `right + 1`. -/
def searchRecent (ts : Nat) : Nat → Nat → Nat → Option Nat × Nat
  | 0, left, _ => (none, left)
  | fuel + 1, left, stop =>
      if left + 1 < stop then
        let middle := (left + (stop - 1)) / 2
        if g.totalts.getD middle 0 < ts ∧ ts ≤ g.totalts.getD (middle + 1) 0 then
          (some middle, left)
        else if g.totalts.getD middle 0 < ts then searchRecent ts fuel (middle + 1) stop
        else searchRecent ts fuel left middle
      else (none, left)

/-- `res + 1`: the position behind the last entry of a row before `ts`, or the
row's start. -/
def recentEnd (row ts : Nat) : Nat :=
  if g.rowEnd row ≤ g.rowStart row then g.rowStart row
  else
    match g.searchRecent ts (g.rowEnd row - g.rowStart row) (g.rowStart row) (g.rowEnd row) with
    | (some res, _) => res + 1
    | (none, left) => if g.totalts.getD left 0 < ts then left + 1 else g.rowStart row

end TemporalCsr

end Dolphin.Graph
