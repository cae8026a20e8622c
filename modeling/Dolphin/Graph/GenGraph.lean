import Dolphin.Tensor.Sort
import Dolphin.Tensor.Ragged

/-!
# Building a temporal CSR

`original_preprocess.py` and `gen_graph.py` collect the edges of every node in lists,
flatten the lists and sort the segment of every node by time. The segment bounds are
int32, and a bound that does not fit wraps around. The sort does not say which of two equal
times comes first.
-/

namespace Dolphin.Graph

open Dolphin.Tensor

/-- A row of `edges.csv`; its index is its position. -/
structure CsvEdge (τ : Type) where
  src : Nat
  dst : Nat
  time : τ
  deriving DecidableEq

/-- The lists of every node. -/
structure NodeLists (τ : Type) where
  indices : List (List Nat)
  ts : List (List τ)
  eid : List (List Nat)

/-- The arrays of a saved graph. -/
structure Csr (τ : Type) where
  indptr : List Int
  indices : List Nat
  ts : List τ
  eid : List Nat
  deriving DecidableEq

/-- The positions that `np.argsort` gives for the segment of a node. -/
structure ArgSort (τ : Type) [LE τ] [Inhabited τ] where
  order : Nat → List τ → List Nat
  perm : ∀ i t, (order i t).Perm (List.range t.length)
  sorted : ∀ i t, (order i t).Pairwise fun p q => t.getD p default ≤ t.getD q default

section Build

variable {τ : Type}

/-- The three `append`s of one list entry. -/
def NodeLists.append (lists : NodeLists τ) (node index : Nat) (time : τ) (idx : Nat) :
    NodeLists τ where
  indices := lists.indices.modify node (· ++ [index])
  ts := lists.ts.modify node (· ++ [time])
  eid := lists.eid.modify node (· ++ [idx])

/-- The body of the loop over the rows. `keep` is the condition on `int_roll`. -/
def NodeLists.addRow (addReverse : Bool) (keep : Nat → Bool) (lists : NodeLists τ)
    (row : CsvEdge τ × Nat) : NodeLists τ :=
  if keep row.2 then
    let lists := lists.append row.1.src row.1.dst row.1.time row.2
    if addReverse then lists.append row.1.dst row.1.src row.1.time row.2 else lists
  else lists

/-- The loop over the rows. -/
def nodeLists (addReverse : Bool) (keep : Nat → Bool) (numNodes : Nat) (df : List (CsvEdge τ)) :
    NodeLists τ :=
  df.zipIdx.foldl (NodeLists.addRow addReverse keep)
    ⟨List.replicate numNodes [], List.replicate numNodes [], List.replicate numNodes []⟩

/-- `indptr[i + 1] = indptr[i] + len(indices[i])`, in int32. -/
def segmentBounds (start : Int) : List Nat → List Int
  | [] => [start]
  | count :: counts => start :: segmentBounds ((start + count).bmod (2 ^ 32)) counts

/-- The arrays before they are sorted. -/
def NodeLists.flatten (lists : NodeLists τ) : Csr τ where
  indptr := segmentBounds 0 (lists.indices.map List.length)
  indices := lists.indices.flatten
  ts := lists.ts.flatten
  eid := lists.eid.flatten

/-- A bound of a slice. A negative one counts from the end. -/
def sliceBound (length : Nat) (i : Int) : Nat :=
  if i < 0 then (i + length).toNat else min i.toNat length

/-- `xs[beg:end]`. -/
def slice {β : Type} (xs : List β) (bounds : Nat × Nat) : List β :=
  (xs.take bounds.2).drop bounds.1

/-- `xs[beg:end] = vals`, for as many values. -/
def setSlice {β : Type} (xs : List β) (bounds : Nat × Nat) (vals : List β) : List β :=
  xs.take bounds.1 ++ vals ++ xs.drop (max bounds.1 bounds.2)

variable [LinearOrder τ] [Inhabited τ]

/-- `tsort(i, indptr, indices, t, eid)`. -/
def tsort (argsort : ArgSort τ) (csr : Csr τ) (i : Nat) : Csr τ :=
  let bounds := (sliceBound csr.ts.length (csr.indptr.getD i 0),
    sliceBound csr.ts.length (csr.indptr.getD (i + 1) 0))
  let sidx := argsort.order i (slice csr.ts bounds)
  { csr with
    indices := setSlice csr.indices bounds (gather (slice csr.indices bounds) sidx)
    ts := setSlice csr.ts bounds (gather (slice csr.ts bounds) sidx)
    eid := setSlice csr.eid bounds (gather (slice csr.eid bounds) sidx) }

/-- One graph from the rows that are kept. -/
def buildCsr (argsort : ArgSort τ) (addReverse : Bool) (keep : Nat → Bool) (numNodes : Nat)
    (df : List (CsvEdge τ)) : Csr τ :=
  (List.range numNodes).foldl (tsort argsort) (nodeLists addReverse keep numNodes df).flatten

/-- `max(int(df['src'].max()), int(df['dst'].max())) + 1`; the maximum of no row is not a
number, which raises. -/
def numNodes (df : List (CsvEdge τ)) : Option Nat := do
  let src ← (df.map CsvEdge.src).max?
  let dst ← (df.map CsvEdge.dst).max?
  some (max src dst + 1)

namespace OriginalPreprocess

/-- `ext_full.npz` of `original_preprocess.py`. -/
def extFull (argsort : ArgSort τ) (df : List (CsvEdge τ)) : Option (Csr τ) := do
  let numNodes ← numNodes df
  some (buildCsr argsort false (fun _ => true) numNodes df)

end OriginalPreprocess

namespace GenGraph

/-- `int_train.npz`, `int_full.npz` and `ext_full.npz` of `gen_graph.py`. -/
structure Files (τ : Type) where
  intTrain : Csr τ
  intFull : Csr τ
  extFull : Csr τ

/-- `gen_graph.py`, with the column `int_roll`. -/
def files (argsort : ArgSort τ) (addReverse : Bool) (intRoll : List Int) (df : List (CsvEdge τ)) :
    Option (Files τ) := do
  let numNodes ← numNodes df
  some
    { intTrain := buildCsr argsort addReverse (fun idx => intRoll.getD idx 0 == 0) numNodes df
      intFull := buildCsr argsort addReverse (fun idx => intRoll.getD idx 0 != 3) numNodes df
      extFull := buildCsr argsort addReverse (fun _ => true) numNodes df }

end GenGraph

end Build

end Dolphin.Graph
