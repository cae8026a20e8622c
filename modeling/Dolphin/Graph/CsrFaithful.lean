import Dolphin.Graph.GenGraph
import Mathlib.Data.List.GetD
import Mathlib.Data.List.Forall2
import Mathlib.Algebra.BigOperators.Group.List.Basic

/-!
# What a built CSR says about its edges

The positions of the CSR are the occurrences of the edges, each in the segment of its node.
The lists, the flattened arrays and the sorted ones are columns of lists of entries, so that
the three arrays are followed as one; sorting a segment permutes its entries. This needs that
the number of entries fits the bounds.
-/

namespace Dolphin.Graph

open Dolphin.Tensor

/-- What the three arrays have at one position. -/
structure Entry (τ : Type) where
  index : Nat
  ts : τ
  eid : Nat
  deriving DecidableEq

instance {τ : Type} [Inhabited τ] : Inhabited (Entry τ) := ⟨⟨default, default, default⟩⟩

section Occurrences

variable {τ : Type}

/-- Where an edge has to be: at its source with its destination, and with reverse edges also
the other way round. -/
def rowOccurrences (addReverse : Bool) (keep : Nat → Bool) (row : CsvEdge τ × Nat) :
    List (Nat × Entry τ) :=
  if keep row.2 then
    (row.1.src, ⟨row.1.dst, row.1.time, row.2⟩) ::
      if addReverse then [(row.1.dst, ⟨row.1.src, row.1.time, row.2⟩)] else []
  else []

/-- The occurrences of all edges, with their nodes. -/
def occurrences (addReverse : Bool) (keep : Nat → Bool) (df : List (CsvEdge τ)) :
    List (Nat × Entry τ) :=
  df.zipIdx.flatMap (rowOccurrences addReverse keep)

/-- The entries at all positions. -/
def Csr.entries (csr : Csr τ) : List (Entry τ) :=
  (csr.indices.zip (csr.ts.zip csr.eid)).map fun entry => ⟨entry.1, entry.2.1, entry.2.2⟩

/-- The entries in the segment of a node. -/
def Csr.segment (csr : Csr τ) (node : Nat) : List (Entry τ) :=
  slice csr.entries ((csr.indptr.getD node 0).toNat, (csr.indptr.getD (node + 1) 0).toNat)

/-- The entries in all segments, with their nodes. -/
def Csr.positions (csr : Csr τ) : List (Nat × Entry τ) :=
  (List.range (csr.indptr.length - 1)).flatMap fun node => (csr.segment node).map (Prod.mk node)

/-- The CSR is an index of the edges that are kept. -/
structure Csr.Indexes [LE τ] (csr : Csr τ) (addReverse : Bool) (keep : Nat → Bool)
    (df : List (CsvEdge τ)) : Prop where
  first : csr.indptr.head? = some 0
  last : csr.indptr.getLast? = some (csr.eid.length : Int)
  bounds : csr.indptr.Pairwise (· ≤ ·)
  indices : csr.indices.length = csr.eid.length
  ts : csr.ts.length = csr.eid.length
  covered : csr.positions.map Prod.snd = csr.entries
  positions : csr.positions.Perm (occurrences addReverse keep df)
  sorted : ∀ node, (csr.segment node).Pairwise fun p q => p.ts ≤ q.ts

end Occurrences

/-! ## The lists of the nodes -/

section Lists

variable {τ : Type}

/-- The lists of the nodes as lists of entries. -/
def rowLists (rows : List (List (Entry τ))) : NodeLists τ where
  indices := rows.map (List.map Entry.index)
  ts := rows.map (List.map Entry.ts)
  eid := rows.map (List.map Entry.eid)

/-- The entries collected at their nodes. -/
def collect (rows : List (List (Entry τ))) (occs : List (Nat × Entry τ)) :
    List (List (Entry τ)) :=
  occs.foldl (fun rows occ => rows.modify occ.1 (· ++ [occ.2])) rows

theorem map_modify_append {α β : Type} (f : α → β) (rows : List (List α)) (node : Nat) (x : α) :
    (rows.modify node (· ++ [x])).map (List.map f) =
      (rows.map (List.map f)).modify node (· ++ [f x]) := by
  induction rows generalizing node with
  | nil => cases node <;> rfl
  | cons row rows ih =>
      cases node with
      | zero => simp
      | succ node => simp [ih]

theorem append_rowLists (rows : List (List (Entry τ))) (node : Nat) (entry : Entry τ) :
    (rowLists rows).append node entry.index entry.ts entry.eid =
      rowLists (rows.modify node (· ++ [entry])) := by
  simp only [NodeLists.append, rowLists, map_modify_append]

theorem addRow_rowLists (addReverse : Bool) (keep : Nat → Bool) (rows : List (List (Entry τ)))
    (row : CsvEdge τ × Nat) :
    (rowLists rows).addRow addReverse keep row =
      rowLists (collect rows (rowOccurrences addReverse keep row)) := by
  have own := append_rowLists rows row.1.src ⟨row.1.dst, row.1.time, row.2⟩
  have other := append_rowLists (rows.modify row.1.src (· ++ [⟨row.1.dst, row.1.time, row.2⟩]))
    row.1.dst ⟨row.1.src, row.1.time, row.2⟩
  unfold NodeLists.addRow rowOccurrences
  cases keep row.2 with
  | false => rfl
  | true =>
      cases addReverse with
      | false => exact own
      | true =>
          simp only [if_true, own, other]
          rfl

theorem nodeLists_eq (addReverse : Bool) (keep : Nat → Bool) (numNodes : Nat)
    (df : List (CsvEdge τ)) :
    nodeLists addReverse keep numNodes df =
      rowLists (collect (List.replicate numNodes []) (occurrences addReverse keep df)) := by
  have start : (⟨List.replicate numNodes [], List.replicate numNodes [],
      List.replicate numNodes []⟩ : NodeLists τ) = rowLists (List.replicate numNodes []) := by
    simp [rowLists]
  rw [nodeLists, start, occurrences]
  generalize List.replicate numNodes ([] : List (Entry τ)) = rows
  induction df.zipIdx generalizing rows with
  | nil => rfl
  | cons row rest ih =>
      rw [List.foldl_cons, addRow_rowLists, ih, List.flatMap_cons, collect, collect, collect,
        List.foldl_append]

/-- One entry more at its node. -/
theorem numbered_modify {first node : Nat} {rows : List (List (Entry τ))}
    (inside : node < rows.length) (entry : Entry τ) :
    (numbered first (rows.modify node (· ++ [entry]))).Perm
      (numbered first rows ++ [(first + node, entry)]) := by
  induction rows generalizing node first with
  | nil => exact absurd inside (Nat.not_lt_zero _)
  | cons row rows ih =>
      cases node with
      | zero =>
          have front : (row :: rows).modify 0 (· ++ [entry]) = (row ++ [entry]) :: rows := rfl
          rw [front, numbered_cons, numbered_cons, List.map_append, List.append_assoc,
            List.append_assoc]
          exact List.perm_append_comm.append_left _
      | succ node =>
          have front : (row :: rows).modify (node + 1) (· ++ [entry]) =
              row :: rows.modify node (· ++ [entry]) := rfl
          have rest : (numbered (first + 1) (rows.modify node (· ++ [entry]))).Perm
              (numbered (first + 1) rows ++ [(first + 1 + node, entry)]) :=
            ih (Nat.lt_of_succ_lt_succ inside)
          have place : first + 1 + node = first + (node + 1) := by omega
          rw [place] at rest
          rw [front, numbered_cons, numbered_cons, List.append_assoc]
          exact rest.append_left _

theorem collect_length (rows : List (List (Entry τ))) (occs : List (Nat × Entry τ)) :
    (collect rows occs).length = rows.length := by
  induction occs generalizing rows with
  | nil => rfl
  | cons occ occs ih =>
      have step : collect rows (occ :: occs) =
          collect (rows.modify occ.1 (· ++ [occ.2])) occs := rfl
      rw [step, ih, List.length_modify]

/-- The collected entries are the occurrences. -/
theorem numbered_collect {rows : List (List (Entry τ))} {occs : List (Nat × Entry τ)}
    (known : ∀ occ ∈ occs, occ.1 < rows.length) :
    (numbered 0 (collect rows occs)).Perm (numbered 0 rows ++ occs) := by
  induction occs generalizing rows with
  | nil =>
      rw [List.append_nil]
      rfl
  | cons occ occs ih =>
      obtain ⟨own, rest⟩ := List.forall_mem_cons.mp known
      have step : collect rows (occ :: occs) =
          collect (rows.modify occ.1 (· ++ [occ.2])) occs := rfl
      have later : (numbered 0 (collect (rows.modify occ.1 (· ++ [occ.2])) occs)).Perm
          (numbered 0 (rows.modify occ.1 (· ++ [occ.2])) ++ occs) :=
        ih (by simpa only [List.length_modify] using rest)
      have here : (numbered 0 (rows.modify occ.1 (· ++ [occ.2]))).Perm
          (numbered 0 rows ++ [(0 + occ.1, occ.2)]) := numbered_modify own occ.2
      rw [Nat.zero_add] at here
      rw [step]
      refine later.trans ((here.append_right occs).trans ?_)
      rw [List.append_assoc]
      rfl

end Lists

/-! ## The bounds of the segments -/

theorem segmentBounds_length (start : Int) (counts : List Nat) :
    (segmentBounds start counts).length = counts.length + 1 := by
  induction counts generalizing start with
  | nil => rfl
  | cons count counts ih => rw [segmentBounds, List.length_cons, ih, List.length_cons]

/-- A bound that fits is the sum. -/
theorem bmod_bound {start count : Nat} (fit : start + count < 2 ^ 31) :
    ((start : Int) + count).bmod (2 ^ 32) = ((start + count : Nat) : Int) := by
  rw [← Int.natCast_add]
  exact Int.bmod_eq_of_le (by omega) (by omega)

/-- As long as they fit, the bounds are the cumulative counts. -/
theorem segmentBounds_getD {start : Nat} {counts : List Nat} (fit : start + counts.sum < 2 ^ 31)
    {i : Nat} (inside : i ≤ counts.length) :
    (segmentBounds start counts).getD i 0 = ((start + (counts.take i).sum : Nat) : Int) := by
  induction counts generalizing start i with
  | nil =>
      obtain rfl : i = 0 := Nat.le_zero.mp inside
      rfl
  | cons count counts ih =>
      cases i with
      | zero => simp [segmentBounds]
      | succ i =>
          rw [List.sum_cons] at fit
          rw [segmentBounds, List.getD_cons_succ, bmod_bound (by omega),
            ih (by omega) (Nat.le_of_succ_le_succ inside),
            List.take_succ_cons, List.sum_cons, Nat.add_assoc]

theorem segmentBounds_zero_getD {counts : List Nat} (fit : counts.sum < 2 ^ 31) {i : Nat}
    (inside : i ≤ counts.length) :
    (segmentBounds 0 counts).getD i 0 = ((counts.take i).sum : Int) := by
  have value := @segmentBounds_getD 0 counts (by rwa [Nat.zero_add]) i inside
  rw [Nat.zero_add] at value
  exact value

/-- As long as they fit, the last bound is the sum of the counts. -/
theorem segmentBounds_getLast? {counts : List Nat} (fit : counts.sum < 2 ^ 31) :
    (segmentBounds 0 counts).getLast? = some (counts.sum : Int) := by
  have inside : counts.length < (segmentBounds 0 counts).length := by
    rw [segmentBounds_length]
    exact Nat.lt_succ_self _
  have value := segmentBounds_zero_getD fit (Nat.le_refl counts.length)
  rw [List.take_length, List.getD_eq_getElem _ _ inside] at value
  rw [List.getLast?_eq_getElem?, segmentBounds_length, Nat.add_sub_cancel,
    List.getElem?_eq_getElem inside, value]

/-- As long as they fit, the bounds do not decrease. -/
theorem segmentBounds_pairwise {start : Nat} {counts : List Nat}
    (fit : start + counts.sum < 2 ^ 31) :
    (segmentBounds (start : Int) counts).Pairwise (· ≤ ·) ∧
      ∀ p ∈ segmentBounds (start : Int) counts, (start : Int) ≤ p := by
  induction counts generalizing start with
  | nil => exact ⟨List.pairwise_singleton _ _, fun p member =>
      Int.le_of_eq (List.mem_singleton.mp member).symm⟩
  | cons count counts ih =>
      rw [List.sum_cons] at fit
      obtain ⟨ordered, low⟩ := @ih (start + count) (by omega)
      rw [segmentBounds, bmod_bound (by omega)]
      have above : ∀ p ∈ segmentBounds ((start + count : Nat) : Int) counts, (start : Int) ≤ p := by
        intro p member
        have bound := low p member
        omega
      refine ⟨List.pairwise_cons.mpr ⟨above, ordered⟩, fun p member => ?_⟩
      rcases List.mem_cons.mp member with rfl | later
      · exact Int.le_refl _
      · exact above p later

/-- No bound is larger than an int32. -/
theorem segmentBounds_lt {start : Int} (fit : start < 2 ^ 31) {counts : List Nat} {p : Int}
    (member : p ∈ segmentBounds start counts) : p < 2 ^ 31 := by
  induction counts generalizing start with
  | nil =>
      obtain rfl := List.mem_singleton.mp member
      exact fit
  | cons count counts ih =>
      rcases List.mem_cons.mp member with rfl | later
      · exact fit
      · refine ih ?_ later
        exact Int.bmod_lt (by decide)

/-! ## Sorting the segments -/

section Sorting

variable {τ : Type} [LinearOrder τ] [Inhabited τ] (argsort : ArgSort τ)

/-- The arrays that are the columns of some entries. -/
def columns (indptr : List Int) (entries : List (Entry τ)) : Csr τ where
  indptr := indptr
  indices := entries.map Entry.index
  ts := entries.map Entry.ts
  eid := entries.map Entry.eid

/-- The entries of a node in the order of `tsort`. -/
def sortRow (i : Nat) (row : List (Entry τ)) : List (Entry τ) :=
  gather row (argsort.order i (row.map Entry.ts))

/-- The entries of the nodes from node `i` on. -/
def sortRows : Nat → List (List (Entry τ)) → List (List (Entry τ))
  | _, [] => []
  | i, row :: rows => sortRow argsort i row :: sortRows (i + 1) rows

theorem sortRow_perm (i : Nat) (row : List (Entry τ)) : (sortRow argsort i row).Perm row := by
  have order := argsort.perm i (row.map Entry.ts)
  rw [List.length_map] at order
  exact gather_perm order

theorem sortRow_sorted (i : Nat) (row : List (Entry τ)) :
    (sortRow argsort i row).Pairwise fun p q => p.ts ≤ q.ts := by
  refine List.pairwise_map.mpr ((argsort.sorted i (row.map Entry.ts)).imp fun {p q} order => ?_)
  have column (k : Nat) : (row.map Entry.ts).getD k default = (row.getD k default).ts := by
    simp only [List.getD_eq_getElem?_getD, List.getElem?_map]
    cases row[k]? <;> rfl
  rwa [column, column] at order

theorem map_sortRow {β : Type} [Inhabited β] (f : Entry τ → β) (i : Nat) (row : List (Entry τ)) :
    gather (row.map f) (argsort.order i (row.map Entry.ts)) = (sortRow argsort i row).map f := by
  apply gather_map
  intro k member
  simpa using (argsort.perm i (row.map Entry.ts)).mem_iff.mp member

theorem slice_middle {β : Type} (front middle back : List β) :
    slice (front ++ middle ++ back) (front.length, front.length + middle.length) = middle := by
  rw [slice, ← List.length_append, List.take_left, List.drop_left]

theorem setSlice_middle {β : Type} (front middle back vals : List β) :
    setSlice (front ++ middle ++ back) (front.length, front.length + middle.length) vals =
      front ++ vals ++ back := by
  have stop : max front.length (front.length + middle.length) = (front ++ middle).length := by
    rw [List.length_append]
    omega
  rw [setSlice, stop, List.drop_left, List.append_assoc front middle back, List.take_left]

theorem sliceBound_natCast {length i : Nat} (inside : i ≤ length) : sliceBound length i = i := by
  rw [sliceBound, if_neg (by omega)]
  omega

/-- A sort of the segment of one node. -/
theorem tsort_columns {indptr : List Int} {front back row : List (Entry τ)} {i : Nat}
    (start : indptr.getD i 0 = (front.length : Int))
    (stop : indptr.getD (i + 1) 0 = ((front.length + row.length : Nat) : Int)) :
    tsort argsort (columns indptr (front ++ row ++ back)) i =
      columns indptr (front ++ sortRow argsort i row ++ back) := by
  have room : (columns indptr (front ++ row ++ back)).ts.length =
      front.length + row.length + back.length := by
    simp [columns, Nat.add_assoc]
  have bounds : (sliceBound (columns indptr (front ++ row ++ back)).ts.length (indptr.getD i 0),
      sliceBound (columns indptr (front ++ row ++ back)).ts.length (indptr.getD (i + 1) 0)) =
        (front.length, front.length + row.length) := by
    rw [start, stop, sliceBound_natCast (by omega), sliceBound_natCast (by omega)]
  have part {β : Type} (f : Entry τ → β) :
      slice ((front ++ row ++ back).map f) (front.length, front.length + row.length) =
        row.map f := by
    have lengths : (front.length, front.length + row.length) =
        ((front.map f).length, (front.map f).length + (row.map f).length) := by simp
    rw [List.map_append, List.map_append, lengths, slice_middle]
  have written {β : Type} (f : Entry τ → β) :
      setSlice ((front ++ row ++ back).map f) (front.length, front.length + row.length)
        ((sortRow argsort i row).map f) = (front ++ sortRow argsort i row ++ back).map f := by
    have lengths : (front.length, front.length + row.length) =
        ((front.map f).length, (front.map f).length + (row.map f).length) := by simp
    rw [List.map_append, List.map_append, lengths, setSlice_middle, List.map_append,
      List.map_append]
  unfold tsort
  simp only [columns] at bounds ⊢
  simp only [bounds, part, map_sortRow, written]

theorem map_length_sortRows (i : Nat) (rows : List (List (Entry τ))) :
    (sortRows argsort i rows).map List.length = rows.map List.length := by
  induction rows generalizing i with
  | nil => rfl
  | cons row rows ih =>
      rw [sortRows, List.map_cons, ih, List.map_cons, (sortRow_perm argsort i row).length_eq]

theorem numbered_sortRows (first i : Nat) (rows : List (List (Entry τ))) :
    (numbered first (sortRows argsort i rows)).Perm (numbered first rows) := by
  induction rows generalizing first i with
  | nil => exact List.Perm.refl _
  | cons row rows ih =>
      rw [sortRows, numbered_cons, numbered_cons]
      exact ((sortRow_perm argsort i row).map _).append (ih (first + 1) (i + 1))

theorem sorted_of_mem_sortRows {i : Nat} {rows : List (List (Entry τ))} {row : List (Entry τ)}
    (member : row ∈ sortRows argsort i rows) : row.Pairwise fun p q => p.ts ≤ q.ts := by
  induction rows generalizing i with
  | nil => exact absurd member List.not_mem_nil
  | cons own rows ih =>
      rcases List.mem_cons.mp member with rfl | later
      · exact sortRow_sorted argsort i own
      · exact ih later

/-- The sorts of the segments from one node on. -/
theorem foldl_tsort_columns {indptr : List Int} {front : List (Entry τ)}
    {rows : List (List (Entry τ))} {i : Nat}
    (bounds : ∀ k ≤ rows.length, indptr.getD (i + k) 0 =
      ((front.length + ((rows.map List.length).take k).sum : Nat) : Int)) :
    (List.range' i rows.length).foldl (tsort argsort) (columns indptr (front ++ rows.flatten)) =
      columns indptr (front ++ (sortRows argsort i rows).flatten) := by
  induction rows generalizing front i with
  | nil => rfl
  | cons row rows ih =>
      have start := bounds 0 (Nat.zero_le _)
      have stop := bounds 1 (Nat.succ_le_succ (Nat.zero_le _))
      simp only [Nat.add_zero, List.take_zero, List.sum_nil] at start
      simp only [List.map_cons, List.take_succ_cons, List.take_zero, List.sum_singleton] at stop
      have sameLength := (sortRow_perm argsort i row).length_eq
      have later : ∀ k ≤ rows.length, indptr.getD (i + 1 + k) 0 =
          (((front ++ sortRow argsort i row).length +
            ((rows.map List.length).take k).sum : Nat) : Int) := by
        intro k inside
        have bound := bounds (k + 1) (Nat.succ_le_succ inside)
        rw [List.map_cons, List.take_succ_cons, List.sum_cons] at bound
        rw [show i + 1 + k = i + (k + 1) by omega, bound, List.length_append, sameLength,
          Nat.add_assoc]
      rw [List.length_cons, List.range'_succ, List.foldl_cons, List.flatten_cons,
        ← List.append_assoc, tsort_columns argsort start stop, ih later, sortRows,
        List.flatten_cons, List.append_assoc]

/-- The arrays that `buildCsr` returns, as long as the bounds fit. -/
theorem buildCsr_eq {addReverse : Bool} {keep : Nat → Bool} {numNodes : Nat}
    {df : List (CsvEdge τ)} {rows : List (List (Entry τ))}
    (lists : nodeLists addReverse keep numNodes df = rowLists rows)
    (count : rows.length = numNodes) (fit : (rows.map List.length).sum < 2 ^ 31) :
    buildCsr argsort addReverse keep numNodes df =
      columns (segmentBounds 0 (rows.map List.length)) (sortRows argsort 0 rows).flatten := by
  have lengths : (rows.map (List.map Entry.index)).map List.length = rows.map List.length := by
    simp [Function.comp_def]
  have flat : (rowLists rows).flatten =
      columns (segmentBounds 0 (rows.map List.length)) ([] ++ rows.flatten) := by
    simp only [NodeLists.flatten, rowLists, lengths, columns, List.nil_append, List.map_flatten]
  have bounds : ∀ k ≤ rows.length, (segmentBounds 0 (rows.map List.length)).getD (0 + k) 0 =
      ((([] : List (Entry τ)).length + ((rows.map List.length).take k).sum : Nat) : Int) := by
    intro k inside
    rw [Nat.zero_add, List.length_nil, Nat.zero_add]
    exact segmentBounds_zero_getD fit (by rwa [List.length_map])
  rw [buildCsr, lists, flat, List.range_eq_range', ← count, foldl_tsort_columns argsort bounds,
    List.nil_append]

end Sorting

/-! ## The index -/

section Index

variable {τ : Type}

theorem entries_columns (indptr : List Int) (xs : List (Entry τ)) :
    (columns indptr xs).entries = xs := by
  induction xs with
  | nil => rfl
  | cons x xs ih =>
      unfold Csr.entries columns at ih ⊢
      simp only at ih
      simp only [List.map_cons, List.zip_cons_cons, ih]

/-- The segments of lists laid out one behind the other are the lists. -/
theorem segment_columns {rows : List (List (Entry τ))} {node : Nat} (inside : node < rows.length)
    (fit : (rows.map List.length).sum < 2 ^ 31) :
    (columns (segmentBounds 0 (rows.map List.length)) rows.flatten).segment node = rows[node] := by
  have bound (k : Nat) (within : k ≤ rows.length) :
      ((segmentBounds 0 (rows.map List.length)).getD k 0).toNat =
        ((rows.map List.length).take k).sum := by
    rw [segmentBounds_zero_getD fit (by rwa [List.length_map]), Int.toNat_natCast]
  have start := bound node (Nat.le_of_lt inside)
  have stop := bound (node + 1) inside
  rw [Csr.segment, entries_columns]
  simp only [columns, start, stop, slice]
  exact List.drop_take_succ_flatten_eq_getElem rows node inside

theorem segment_columns_outside {rows : List (List (Entry τ))} {node : Nat}
    (outside : rows.length ≤ node) :
    (columns (segmentBounds 0 (rows.map List.length)) rows.flatten).segment node = [] := by
  have none_ : (segmentBounds 0 (rows.map List.length)).getD (node + 1) 0 = 0 := by
    rw [List.getD_eq_getElem?_getD, List.getElem?_eq_none (by
      rw [segmentBounds_length, List.length_map]
      omega)]
    rfl
  rw [Csr.segment, entries_columns]
  simp only [columns, none_, slice, Int.toNat_zero, List.take_zero, List.drop_nil]

theorem positions_columns {rows : List (List (Entry τ))}
    (fit : (rows.map List.length).sum < 2 ^ 31) :
    (columns (segmentBounds 0 (rows.map List.length)) rows.flatten).positions =
      numbered 0 rows := by
  have count : (columns (segmentBounds 0 (rows.map List.length)) rows.flatten).indptr.length - 1 =
      rows.length := by
    rw [columns, segmentBounds_length, List.length_map, Nat.add_sub_cancel]
  rw [Csr.positions, count, numbered, List.flatMap_def, List.flatMap_def]
  congr 1
  apply List.ext_getElem
  · simp
  · intro node inRange inRows
    have inside : node < rows.length := by simpa using inRange
    simp [segment_columns inside fit]

theorem map_snd_numbered (first : Nat) (rows : List (List (Entry τ))) :
    (numbered first rows).map Prod.snd = rows.flatten := by
  induction rows generalizing first with
  | nil => rfl
  | cons row rows ih =>
      rw [numbered_cons, List.map_append, ih, List.flatten_cons, List.map_map]
      exact congrArg (· ++ rows.flatten) (List.map_id row)

theorem numbered_length (first : Nat) (rows : List (List (Entry τ))) :
    (numbered first rows).length = (rows.map List.length).sum := by
  induction rows generalizing first with
  | nil => rfl
  | cons row rows ih =>
      rw [numbered_cons, List.length_append, List.length_map, ih, List.map_cons, List.sum_cons]

theorem numbered_replicate_nil (first numNodes : Nat) :
    numbered first (List.replicate numNodes ([] : List (Entry τ))) = [] := by
  induction numNodes generalizing first with
  | zero => rfl
  | succ numNodes ih => rw [List.replicate_succ, numbered_cons, ih, List.map_nil, List.nil_append]

/-- What is collected from no lists are the occurrences. -/
theorem numbered_collect_replicate {numNodes : Nat} {occs : List (Nat × Entry τ)}
    (known : ∀ occ ∈ occs, occ.1 < numNodes) :
    (numbered 0 (collect (List.replicate numNodes []) occs)).Perm occs := by
  have perm : (numbered 0 (collect (List.replicate numNodes []) occs)).Perm
      (numbered 0 (List.replicate numNodes []) ++ occs) :=
    numbered_collect (by simpa only [List.length_replicate] using known)
  rwa [numbered_replicate_nil, List.nil_append] at perm

/-- The lists laid out one behind the other with their bounds index the edges. -/
theorem columns_indexes [LinearOrder τ] {addReverse : Bool} {keep : Nat → Bool}
    {df : List (CsvEdge τ)} {rows : List (List (Entry τ))}
    (fit : (rows.map List.length).sum < 2 ^ 31)
    (occs : (numbered 0 rows).Perm (occurrences addReverse keep df))
    (sorted : ∀ row ∈ rows, row.Pairwise fun p q => p.ts ≤ q.ts) :
    (columns (segmentBounds 0 (rows.map List.length)) rows.flatten).Indexes addReverse keep df where
  first := by cases rows <;> rfl
  last := by
    have total : (columns (segmentBounds 0 (rows.map List.length)) rows.flatten).eid.length =
        (rows.map List.length).sum := by
      rw [columns, List.length_map, List.length_flatten]
    rw [total]
    exact segmentBounds_getLast? fit
  bounds := by
    have ordered := @segmentBounds_pairwise 0 (rows.map List.length) (by simpa using fit)
    exact ordered.1
  indices := (List.length_map _).trans (List.length_map _).symm
  ts := (List.length_map _).trans (List.length_map _).symm
  covered := by rw [positions_columns fit, map_snd_numbered, entries_columns]
  positions := by rwa [positions_columns fit]
  sorted := by
    intro node
    by_cases inside : node < rows.length
    · rw [segment_columns inside fit]
      exact sorted _ (List.getElem_mem inside)
    · rw [segment_columns_outside (Nat.le_of_not_lt inside)]
      exact List.Pairwise.nil

/-! ## The built graphs -/

theorem mem_rowOccurrences {addReverse : Bool} {keep : Nat → Bool} {row : CsvEdge τ × Nat}
    {occ : Nat × Entry τ} (member : occ ∈ rowOccurrences addReverse keep row) :
    occ.1 = row.1.src ∨ occ.1 = row.1.dst := by
  unfold rowOccurrences at member
  split at member
  · rcases List.mem_cons.mp member with rfl | reverse
    · exact .inl rfl
    · split at reverse
      · exact .inr (congrArg Prod.fst (List.mem_singleton.mp reverse))
      · exact absurd reverse List.not_mem_nil
  · exact absurd member List.not_mem_nil

theorem occurrences_lt (addReverse : Bool) (keep : Nat → Bool) {numNodes : Nat}
    {df : List (CsvEdge τ)} (known : ∀ row ∈ df, row.src < numNodes ∧ row.dst < numNodes) :
    ∀ occ ∈ occurrences addReverse keep df, occ.1 < numNodes := by
  intro occ member
  obtain ⟨row, source, own⟩ := List.mem_flatMap.mp member
  obtain ⟨src, dst⟩ := known row.1 (List.fst_mem_of_mem_zipIdx source)
  rcases mem_rowOccurrences own with node | node
  · rwa [node]
  · rwa [node]

/-- A graph with fewer than 2 ^ 31 entries indexes its edges. -/
theorem buildCsr_indexes [LinearOrder τ] [Inhabited τ] (argsort : ArgSort τ) {addReverse : Bool}
    {keep : Nat → Bool} {numNodes : Nat} {df : List (CsvEdge τ)}
    (known : ∀ row ∈ df, row.src < numNodes ∧ row.dst < numNodes)
    (few : (occurrences addReverse keep df).length < 2 ^ 31) :
    (buildCsr argsort addReverse keep numNodes df).Indexes addReverse keep df := by
  have perm := numbered_collect_replicate (occurrences_lt addReverse keep known)
  have fit := perm.length_eq
  rw [numbered_length] at fit
  generalize lists : collect (List.replicate numNodes []) (occurrences addReverse keep df) = rows
    at perm fit
  have count : rows.length = numNodes := by rw [← lists, collect_length, List.length_replicate]
  have built := buildCsr_eq argsort ((nodeLists_eq addReverse keep numNodes df).trans
    (congrArg rowLists lists)) count (by omega)
  rw [built, ← map_length_sortRows argsort 0 rows]
  refine columns_indexes ?_ ((numbered_sortRows argsort 0 0 rows).trans perm) ?_
  · rw [map_length_sortRows]
    omega
  · exact fun row member => sorted_of_mem_sortRows argsort member

theorem numNodes_eq_some {df : List (CsvEdge τ)} (some_ : df ≠ []) :
    ∃ count, numNodes df = some count ∧ ∀ row ∈ df, row.src < count ∧ row.dst < count := by
  obtain ⟨src, largestSrc⟩ := Option.isSome_iff_exists.mp (List.isSome_max?_of_ne_nil
    (l := df.map CsvEdge.src) (by simpa using some_))
  obtain ⟨dst, largestDst⟩ := Option.isSome_iff_exists.mp (List.isSome_max?_of_ne_nil
    (l := df.map CsvEdge.dst) (by simpa using some_))
  refine ⟨max src dst + 1, ?_, fun row member => ?_⟩
  · rw [numNodes, largestSrc, largestDst]
    rfl
  · have boundSrc := (List.max?_eq_some_iff.mp largestSrc).2 _ (List.mem_map_of_mem member)
    have boundDst := (List.max?_eq_some_iff.mp largestDst).2 _ (List.mem_map_of_mem member)
    omega

/-- The ids of the occurrences: every index once for each of its entries. -/
theorem count_occurrences (addReverse : Bool) (first e : Nat) (df : List (CsvEdge τ)) :
    (((df.zipIdx first).flatMap (rowOccurrences addReverse fun _ => true)).map
      fun occ => occ.2.eid).count e =
        if first ≤ e ∧ e < first + df.length then (if addReverse then 2 else 1) else 0 := by
  induction df generalizing first with
  | nil =>
      rw [if_neg (by simp only [List.length_nil]; omega)]
      rfl
  | cons row df ih =>
      rw [List.zipIdx_cons, List.flatMap_cons, List.map_append, List.count_append, ih]
      have own : ((rowOccurrences addReverse (fun _ => true) (row, first)).map
          fun occ => occ.2.eid).count e =
            if first = e then (if addReverse then 2 else 1) else 0 := by
        cases addReverse <;> by_cases same : first = e <;> simp [rowOccurrences, same]
      rw [own, List.length_cons]
      generalize (if addReverse then 2 else 1) = times
      split_ifs <;> omega

theorem length_occurrences (addReverse : Bool) (df : List (CsvEdge τ)) :
    (occurrences addReverse (fun _ => true) df).length =
      (if addReverse then 2 else 1) * df.length := by
  rw [occurrences]
  generalize 0 = first
  induction df generalizing first with
  | nil => simp
  | cons row df ih =>
      rw [List.zipIdx_cons, List.flatMap_cons, List.length_append, ih, List.length_cons]
      cases addReverse <;> simp [rowOccurrences] <;> omega

/-- The graph of `original_preprocess.py` has no more entries than the one of `gen_graph.py`. -/
theorem few_occurrences {addReverse : Bool} {df : List (CsvEdge τ)}
    (few : (if addReverse then 2 else 1) * df.length < 2 ^ 31) :
    (occurrences false (fun _ => true) df).length < 2 ^ 31 ∧
      (occurrences addReverse (fun _ => true) df).length < 2 ^ 31 := by
  rw [length_occurrences, length_occurrences]
  refine ⟨?_, few⟩
  cases addReverse <;> simp at few ⊢ <;> omega

theorem Csr.map_eid_entries {csr : Csr τ} (indices : csr.indices.length = csr.eid.length)
    (ts : csr.ts.length = csr.eid.length) : csr.entries.map Entry.eid = csr.eid := by
  have columns : csr.entries.map Entry.eid =
      ((csr.indices.zip (csr.ts.zip csr.eid)).map Prod.snd).map Prod.snd := by
    rw [Csr.entries, List.map_map, List.map_map]
    rfl
  have inner : (csr.ts.zip csr.eid).length = csr.eid.length := by
    rw [List.length_zip, ts, Nat.min_self]
  rw [columns, List.map_snd_zip (by rw [inner, indices]), List.map_snd_zip (by rw [ts])]

/-- The ids of an index are those of the occurrences. -/
theorem Csr.Indexes.eids [LE τ] {csr : Csr τ} {addReverse : Bool} {keep : Nat → Bool}
    {df : List (CsvEdge τ)} (indexed : csr.Indexes addReverse keep df) :
    csr.eid.Perm ((occurrences addReverse keep df).map fun occ => occ.2.eid) := by
  have perm := (indexed.positions.map Prod.snd).map Entry.eid
  rw [indexed.covered, Csr.map_eid_entries indexed.indices indexed.ts, List.map_map] at perm
  exact perm

/-- Every edge has its one entry, or its two with reverse edges. -/
theorem Csr.Indexes.count [LE τ] {csr : Csr τ} {addReverse : Bool} {df : List (CsvEdge τ)}
    (indexed : csr.Indexes addReverse (fun _ => true) df) {e : Nat} (known : e < df.length) :
    csr.eid.count e = if addReverse then 2 else 1 := by
  rw [indexed.eids.count_eq, occurrences, count_occurrences, if_pos ⟨Nat.zero_le _, by omega⟩]

/-- Both programs index every edge with its endpoints, its time and its id, as long as there
are fewer than 2 ^ 31 entries. -/
theorem extFull_indexes [LinearOrder τ] [Inhabited τ] (argsort : ArgSort τ) (addReverse : Bool)
    (intRoll : List Int) (df : List (CsvEdge τ)) (some_ : df ≠ [])
    (few : (if addReverse then 2 else 1) * df.length < 2 ^ 31) :
    (∃ csr, OriginalPreprocess.extFull argsort df = some csr ∧
      csr.Indexes false (fun _ => true) df ∧ ∀ e < df.length, csr.eid.count e = 1) ∧
    ∃ files, GenGraph.files argsort addReverse intRoll df = some files ∧
      files.extFull.Indexes addReverse (fun _ => true) df ∧
      ∀ e < df.length, files.extFull.eid.count e = if addReverse then 2 else 1 := by
  obtain ⟨count, nodes, known⟩ := numNodes_eq_some some_
  obtain ⟨fewSingle, fewBoth⟩ := few_occurrences few
  constructor
  · have indexed := buildCsr_indexes argsort known fewSingle
    rw [OriginalPreprocess.extFull, nodes]
    exact ⟨_, rfl, indexed, fun e inside => indexed.count inside⟩
  · have indexed := buildCsr_indexes argsort known fewBoth
    rw [GenGraph.files, nodes]
    exact ⟨_, rfl, indexed, fun e inside => indexed.count inside⟩

/-- The order of the positions. -/
def stableSort : ArgSort Nat where
  order := fun _ t => Tensor.argsort t
  perm := fun _ t => argsort_perm t
  sorted := fun _ t => argsort_pairwise t

/-- A self-loop, a parallel edge and equal times, with reverse edges. -/
theorem extFull_indexes_three :
    (∃ csr, OriginalPreprocess.extFull stableSort [⟨0, 0, 5⟩, ⟨0, 2, 3⟩, ⟨0, 2, 3⟩] = some csr ∧
      csr.Indexes false (fun _ => true) [⟨0, 0, 5⟩, ⟨0, 2, 3⟩, ⟨0, 2, 3⟩] ∧
      ∀ e < 3, csr.eid.count e = 1) ∧
    ∃ files, GenGraph.files stableSort true [] [⟨0, 0, 5⟩, ⟨0, 2, 3⟩, ⟨0, 2, 3⟩] = some files ∧
      files.extFull.Indexes true (fun _ => true) [⟨0, 0, 5⟩, ⟨0, 2, 3⟩, ⟨0, 2, 3⟩] ∧
      ∀ e < 3, files.extFull.eid.count e = 2 :=
  extFull_indexes stableSort true [] [⟨0, 0, 5⟩, ⟨0, 2, 3⟩, ⟨0, 2, 3⟩] (by decide) (by decide)

/-! ### Too many entries -/

theorem sliceBound_le (length : Nat) (i : Int) : sliceBound length i ≤ length := by
  unfold sliceBound
  split <;> omega

theorem setSlice_length {β : Type} {xs vals : List β} {bounds : Nat × Nat}
    (start : bounds.1 ≤ xs.length) (stop : bounds.2 ≤ xs.length)
    (aligned : vals.length = (slice xs bounds).length) :
    (setSlice xs bounds vals).length = xs.length := by
  rw [slice, List.length_drop, List.length_take] at aligned
  rw [setSlice, List.length_append, List.length_append, aligned, List.length_take,
    List.length_drop]
  omega

/-- A sort keeps the bounds and the number of entries, whatever the bounds are. -/
theorem tsort_lengths [LinearOrder τ] [Inhabited τ] (argsort : ArgSort τ) (csr : Csr τ) (i : Nat)
    (ts : csr.ts.length = csr.eid.length) :
    (tsort argsort csr i).indptr = csr.indptr ∧
      (tsort argsort csr i).ts.length = (tsort argsort csr i).eid.length ∧
      (tsort argsort csr i).eid.length = csr.eid.length := by
  unfold tsort
  simp only
  generalize bounds_ : (sliceBound csr.ts.length (csr.indptr.getD i 0),
    sliceBound csr.ts.length (csr.indptr.getD (i + 1) 0)) = bounds
  have start : bounds.1 ≤ csr.ts.length := by
    rw [← bounds_]
    exact sliceBound_le _ _
  have stop : bounds.2 ≤ csr.ts.length := by
    rw [← bounds_]
    exact sliceBound_le _ _
  have sorted := (argsort.perm i (slice csr.ts bounds)).length_eq
  rw [List.length_range] at sorted
  have same : (slice csr.eid bounds).length = (slice csr.ts bounds).length := by
    rw [slice, slice, List.length_drop, List.length_drop, List.length_take, List.length_take, ts]
  have tsLength : (setSlice csr.ts bounds (gather (slice csr.ts bounds)
      (argsort.order i (slice csr.ts bounds)))).length = csr.ts.length :=
    setSlice_length start stop (by rw [gather_length, sorted])
  have eidLength : (setSlice csr.eid bounds (gather (slice csr.eid bounds)
      (argsort.order i (slice csr.ts bounds)))).length = csr.eid.length :=
    setSlice_length (ts ▸ start) (ts ▸ stop) (by rw [gather_length, sorted, same])
  exact ⟨trivial, by rw [tsLength, eidLength, ts], eidLength⟩

theorem foldl_tsort_lengths [LinearOrder τ] [Inhabited τ] (argsort : ArgSort τ) (csr : Csr τ)
    (nodes : List Nat) (ts : csr.ts.length = csr.eid.length) :
    (nodes.foldl (tsort argsort) csr).indptr = csr.indptr ∧
      (nodes.foldl (tsort argsort) csr).eid.length = csr.eid.length := by
  induction nodes generalizing csr with
  | nil => exact ⟨rfl, rfl⟩
  | cons node nodes ih =>
      obtain ⟨indptr, aligned, count⟩ := tsort_lengths argsort csr node ts
      obtain ⟨later, total⟩ := ih (tsort argsort csr node) aligned
      exact ⟨later.trans indptr, total.trans count⟩

/-- With 2 ^ 31 entries or more the last bound is not their number. -/
theorem buildCsr_tooMany [LinearOrder τ] [Inhabited τ] (argsort : ArgSort τ) {addReverse : Bool}
    {keep : Nat → Bool} {numNodes : Nat} {df : List (CsvEdge τ)}
    (known : ∀ row ∈ df, row.src < numNodes ∧ row.dst < numNodes)
    (many : 2 ^ 31 ≤ (occurrences addReverse keep df).length) :
    ¬(buildCsr argsort addReverse keep numNodes df).Indexes addReverse keep df := by
  intro indexed
  have perm := numbered_collect_replicate (occurrences_lt addReverse keep known)
  have total := perm.length_eq
  rw [numbered_length] at total
  have lists := nodeLists_eq addReverse keep numNodes df
  generalize collect (List.replicate numNodes []) (occurrences addReverse keep df) = rows
    at total lists
  have column {β : Type} (f : Entry τ → β) :
      (rows.map (List.map f)).flatten.length = (rows.map List.length).sum := by
    rw [← List.map_flatten, List.length_map, List.length_flatten]
  obtain ⟨indptr, count⟩ := foldl_tsort_lengths argsort (rowLists rows).flatten
    (List.range numNodes) ((column Entry.ts).trans (column Entry.eid).symm)
  have last := indexed.last
  rw [buildCsr, lists, indptr, count] at last
  have bound := segmentBounds_lt (by decide) (List.mem_of_getLast? last)
  have entries : ((rowLists rows).flatten).eid.length = (rows.map List.length).sum :=
    column Entry.eid
  omega

/-- 2 ^ 31 times the same edge. -/
theorem extFull_tooMany : ∃ csr,
    OriginalPreprocess.extFull stableSort (List.replicate (2 ^ 31) ⟨0, 0, 0⟩) = some csr ∧
      ¬csr.Indexes false (fun _ => true) (List.replicate (2 ^ 31) ⟨0, 0, 0⟩) := by
  have length := @List.length_replicate (CsvEdge Nat) (2 ^ 31) ⟨0, 0, 0⟩
  generalize List.replicate (2 ^ 31) (⟨0, 0, 0⟩ : CsvEdge Nat) = df at length ⊢
  obtain ⟨count, nodes, known⟩ := numNodes_eq_some
    (List.ne_nil_of_length_pos (by omega : 0 < df.length))
  rw [OriginalPreprocess.extFull, nodes]
  refine ⟨_, rfl, buildCsr_tooMany stableSort known ?_⟩
  rw [length_occurrences, length]
  decide

end Index

end Dolphin.Graph
