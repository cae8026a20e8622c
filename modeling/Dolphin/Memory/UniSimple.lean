import Dolphin.Tensor.LastWrite
import Dolphin.Tensor.Ragged
import Mathlib.Data.List.Lex
import Mathlib.Data.List.NodupEquivFin
import Mathlib.Data.List.GetD

/-!
# The nodes that are written once

`gen_simple` collects for every block the nodes that have to be written to the disk in it.
`uni_simple` orders the nodes that are written once by their blocks, to lay their rows out
in this order.

The counts are taken by a kernel without a bounds check, and the tables for them are
shorter than the ids: the largest id does not fit into either of them.
-/

namespace Dolphin.Memory

open Dolphin.Tensor

/-- `bincountKernel(nodelist, nodeTable)`. An id outside the table is counted in another
place of the memory. -/
def bincount (nodelist nodeTable : List Nat) : List Nat :=
  nodelist.foldl (fun table id => table.modify id (· + 1)) nodeTable

/-- A call of `dgl.bincount`. -/
structure BincountCall where
  nodelist : List Nat
  tableLength : Nat
  deriving DecidableEq

/-- Every id has a place in the table. -/
def BincountCall.InBounds (call : BincountCall) : Prop :=
  ∀ id ∈ call.nodelist, id < call.tableLength

instance (call : BincountCall) : Decidable call.InBounds :=
  inferInstanceAs (Decidable (∀ _ ∈ _, _))

/-- The rest of `uni_simple`, behind `count_labels`. The maximum of no rows raises. -/
def uniRows (node block : List Nat) (freq : Nat) (reorderRes countLabels : List Nat) :
    List BincountCall × Option (List Nat × List Nat × List Nat) :=
  let labelCum := cumsum 0 countLabels
  let disNodeIdx := nonzero (countLabels.map fun count => count == freq)
  let res := disNodeIdx.map fun v =>
    (List.range freq).map fun i => block.getD (labelCum.getD v 0 - freq + i) 0
  let resUniInv := inverse res
  let resUniInvSort := sort resUniInv
  let resUii := argsort resUniInv
  match resUniInvSort.max? with
  | none => ([], none)
  | some top =>
      let resUniInvLabel := bincount resUniInvSort (List.replicate top 0)
      let resUniInvThresholdInd := nonzero (resUniInvLabel.map fun count => decide (count < freq))
      let resUniInvThresholdMask := isin resUniInvSort resUniInvThresholdInd true
      let resRet := gather disNodeIdx (maskSelect resUniInvThresholdMask resUii)
      let nodeKept := isin node resRet true
      ([⟨resUniInvSort, top⟩],
        some (maskSelect nodeKept node, maskSelect nodeKept block, reorderRes ++ resRet))

/-- `uni_simple(node, block, freq, reorder_res)`: the calls of `dgl.bincount`, and what is
returned. The maximum of no node raises, and so does the transpose of no row for a
frequency of zero. -/
def uniSimple (node block : List Nat) (freq : Nat) (reorderRes : List Nat) :
    List BincountCall × Option (List Nat × List Nat × List Nat) :=
  match node.max? with
  | none => ([], none)
  | some top =>
      let countLabels := (List.replicate top 0).drop 1
      let call : BincountCall := ⟨node, countLabels.length⟩
      if freq = 0 then ([call], none)
      else
        let rest := uniRows node block freq reorderRes (bincount node countLabels)
        (call :: rest.1, rest.2)

/-! ## The counts -/

/-- The places of the table, each with its count. -/
theorem getElem?_bincount (nodelist nodeTable : List Nat) (v : Nat) :
    (bincount nodelist nodeTable)[v]? = nodeTable[v]?.map (· + nodelist.count v) := by
  induction nodelist generalizing nodeTable with
  | nil => simp [bincount]
  | cons id nodelist ih =>
      have step : bincount (id :: nodelist) nodeTable =
          bincount nodelist (nodeTable.modify id (· + 1)) := rfl
      rw [step, ih, List.getElem?_modify, List.count_cons]
      by_cases own : id = v
      · subst own
        cases nodeTable[id]? with
        | none => rfl
        | some count =>
            simp
            omega
      · cases nodeTable[v]? <;> simp [own]

theorem bincount_length (nodelist nodeTable : List Nat) :
    (bincount nodelist nodeTable).length = nodeTable.length := by
  induction nodelist generalizing nodeTable with
  | nil => rfl
  | cons id nodelist ih =>
      have step : bincount (id :: nodelist) nodeTable =
          bincount nodelist (nodeTable.modify id (· + 1)) := rfl
      rw [step, ih, List.length_modify]

theorem getElem?_bincount_zeros {nodelist : List Nat} {size v : Nat} (inside : v < size) :
    (bincount nodelist (List.replicate size 0))[v]? = some (nodelist.count v) := by
  rw [getElem?_bincount, List.getElem?_replicate, if_pos inside, Option.map_some, Nat.zero_add]

theorem countP_le_succ (xs : List Nat) (v : Nat) :
    xs.countP (· ≤ v + 1) = xs.countP (· ≤ v) + xs.count (v + 1) := by
  induction xs with
  | nil => rfl
  | cons x xs ih =>
      rw [List.countP_cons, List.countP_cons, List.count_cons, ih]
      by_cases own : x = v + 1
      · have above : ¬v + 1 ≤ v := by omega
        simp [own, above]
        omega
      · by_cases below : x ≤ v
        · simp [own, below, Nat.le_succ_of_le below]
          omega
        · have above : ¬x ≤ v + 1 := by omega
          simp [own, below, above]

/-- A cumulative count is the number of pairs up to a node. -/
theorem cumsum_bincount {nodelist : List Nat} {size v : Nat} (inside : v < size) :
    (cumsum 0 (bincount nodelist (List.replicate size 0))).getD v 0 =
      nodelist.countP (· ≤ v) := by
  rw [cumsum_getD (by rwa [bincount_length, List.length_replicate]), Nat.zero_add]
  induction v with
  | zero =>
      rw [List.take_add_one, List.take_zero, List.nil_append, getElem?_bincount_zeros inside,
        Option.toList_some, List.sum_singleton, List.count_eq_countP]
      refine List.countP_congr fun x _ => ?_
      simp
  | succ v ih =>
      rw [List.take_add_one, List.sum_append, ih (by omega), getElem?_bincount_zeros inside,
        Option.toList_some, List.sum_singleton, countP_le_succ]

/-- The values up to a bound are in front in a sorted list. -/
theorem lt_countP_iff {xs : List Nat} (sorted : xs.Pairwise (· ≤ ·)) {i x : Nat}
    (value : xs[i]? = some x) (v : Nat) : i < xs.countP (· ≤ v) ↔ x ≤ v := by
  induction xs generalizing i with
  | nil => simp at value
  | cons y ys ih =>
      obtain ⟨first, rest⟩ := List.pairwise_cons.mp sorted
      rw [List.countP_cons]
      by_cases below : y ≤ v
      · cases i with
        | zero =>
            obtain rfl : y = x := by simpa using value
            simp [below]
        | succ i =>
            have later := ih rest (by simpa using value)
            simp [below, ← later]
      · have none_ : ys.countP (· ≤ v) = 0 := by
          refine List.countP_eq_zero.mpr fun z member => ?_
          have above := first z member
          simp
          omega
        have above : y ≤ x := by
          rcases List.mem_cons.mp (List.mem_of_getElem? value) with rfl | member
          · exact Nat.le_refl _
          · exact first x member
        simp [below, none_]
        omega

/-- The last pair of a node is at its cumulative count. -/
theorem getElem?_countP {xs : List Nat} (sorted : xs.Pairwise (· ≤ ·)) {v : Nat}
    (member : v ∈ xs) : xs[xs.countP (· ≤ v) - 1]? = some v := by
  obtain ⟨i, value⟩ := List.getElem?_of_mem member
  have before := (lt_countP_iff sorted value v).mpr (Nat.le_refl v)
  have room : xs.countP (· ≤ v) - 1 < xs.length := by
    have most := List.countP_le_length (p := (decide <| · ≤ v)) (l := xs)
    omega
  have last : xs[xs.countP (· ≤ v) - 1]? = some xs[xs.countP (· ≤ v) - 1] :=
    List.getElem?_eq_getElem room
  have low := (lt_countP_iff sorted last v).mp (by omega)
  obtain ⟨inside, own⟩ := List.getElem?_eq_some_iff.mp value
  have high : xs[i] ≤ xs[xs.countP (· ≤ v) - 1] := by
    rcases Nat.lt_or_eq_of_le (show i ≤ xs.countP (· ≤ v) - 1 by omega) with earlier | same
    · exact List.pairwise_iff_getElem.mp sorted i _ inside room earlier
    · simp [same]
  rw [last]
  exact congrArg some (by omega)

/-- A value that is there once has one place. -/
theorem index_eq_of_count_eq_one {xs : List Nat} {v : Nat} (once : xs.count v = 1) {i j : Nat}
    (first : xs[i]? = some v) (second : xs[j]? = some v) : i = j := by
  have notTwice : ¬List.Duplicate v xs := by
    rw [List.duplicate_iff_two_le_count, once]
    omega
  have order (i j : Nat) (first : xs[i]? = some v) (second : xs[j]? = some v) : ¬i < j := by
    intro less
    obtain ⟨insideI, valueI⟩ := List.getElem?_eq_some_iff.mp first
    obtain ⟨insideJ, valueJ⟩ := List.getElem?_eq_some_iff.mp second
    exact notTwice (List.duplicate_iff_exists_distinct_get.mpr
      ⟨⟨i, insideI⟩, ⟨j, insideJ⟩, less, valueI.symm, valueJ.symm⟩)
  have notLess := order i j first second
  have notGreater := order j i second first
  omega

/-! ## What is returned -/

/-- The blocks of a node do not come after those of another one. -/
def BlockLe (node block : List Nat) (u v : Nat) : Prop :=
  ∀ i j a b : Nat, node[i]? = some u → block[i]? = some a → node[j]? = some v →
    block[j]? = some b → a ≤ b

/-- With the frequency 1 no row is rarer, for the numbers below the largest are all there. -/
theorem uniRows_threshold {rows : List (List Nat)} {top : Nat}
    (largest : (sort (inverse rows)).max? = some top) :
    nonzero ((bincount (sort (inverse rows)) (List.replicate top 0)).map
      fun count => decide (count < 1)) = [] := by
  refine List.eq_nil_iff_forall_not_mem.mpr fun k member => ?_
  rw [mem_nonzero, List.getElem?_map] at member
  obtain ⟨count, entry, rare⟩ := Option.map_eq_some_iff.mp member
  have below : k < top := by
    have bound := (List.getElem?_eq_some_iff.mp entry).1
    rwa [bincount_length, List.length_replicate] at bound
  rw [getElem?_bincount_zeros below] at entry
  have inside : top < (unique rows).length :=
    mem_inverse.mp (mem_sort.mp (List.max?_mem largest))
  have there : k ∈ sort (inverse rows) := mem_sort.mpr (mem_inverse.mpr (by omega))
  have positive := List.count_pos_iff.mpr there
  have value := Option.some.inj entry
  simp at rare
  omega

/-- What is ordered for the frequency 1: every place of the count table that has a count of
one. -/
theorem uniRows_one {node block : List Nat} {size : Nat} (sorted : node.Pairwise (· ≤ ·))
    (reorderRes : List Nat) {calls : List BincountCall} {result : List Nat × List Nat × List Nat}
    (returned : uniRows node block 1 reorderRes (bincount node (List.replicate size 0)) =
      (calls, some result)) :
    ∃ resRet, result.2.2 = reorderRes ++ resRet ∧
      (∀ v, v ∈ resRet ↔ v < size ∧ node.count v = 1) ∧ resRet.Nodup ∧
      resRet.Pairwise (BlockLe node block) := by
  unfold uniRows at returned
  simp only at returned
  generalize dis : nonzero ((bincount node (List.replicate size 0)).map fun count => count == 1) =
    disNodeIdx at returned
  generalize res : (disNodeIdx.map fun v => (List.range 1).map fun i =>
    block.getD ((cumsum 0 (bincount node (List.replicate size 0))).getD v 0 - 1 + i) 0) =
      rows at returned
  have aligned : rows.length = disNodeIdx.length := by rw [← res, List.length_map]
  split at returned
  · exact absurd (congrArg Prod.snd returned) (by simp)
  rename_i top largest
  have selected : maskSelect (isin (sort (inverse rows)) [] true) (argsort (inverse rows)) =
      argsort (inverse rows) := maskSelect_isin_nil (by rw [sort_length, argsort_length])
  rw [uniRows_threshold largest, selected] at returned
  have own := Option.some.inj (congrArg Prod.snd returned)
  have order : (argsort (inverse rows)).Perm (List.range disNodeIdx.length) := by
    have permuted := argsort_perm (inverse rows)
    rwa [inverse, List.length_map, aligned] at permuted
  have once (v : Nat) : v ∈ disNodeIdx ↔ v < size ∧ node.count v = 1 := by
    rw [← dis, mem_nonzero, List.getElem?_map]
    by_cases inside : v < size
    · rw [getElem?_bincount_zeros inside]
      simp [inside]
    · rw [List.getElem?_eq_none (by rw [bincount_length, List.length_replicate]; omega)]
      simp [inside]
  have block_ (v : Nat) (member : v ∈ disNodeIdx) (i a : Nat) (place : node[i]? = some v)
      (value : block[i]? = some a) :
      block.getD ((cumsum 0 (bincount node (List.replicate size 0))).getD v 0 - 1 + 0) 0 = a := by
    obtain ⟨inside, single⟩ := (once v).mp member
    have last := getElem?_countP sorted (List.mem_of_getElem? place)
    rw [cumsum_bincount inside, Nat.add_zero, ← index_eq_of_count_eq_one single place last,
      List.getD_eq_getElem?_getD, value, Option.getD_some]
  refine ⟨gather disNodeIdx (argsort (inverse rows)), by rw [← own], ?_, ?_, ?_⟩
  · exact fun v => (gather_perm order).mem_iff.trans (once v)
  · refine (gather_perm order).nodup_iff.mpr ?_
    rw [← dis]
    exact (nonzero_pairwise _).imp Nat.ne_of_lt
  · refine List.pairwise_map.mpr (List.Pairwise.imp_of_mem
      (fun {k l} memberK memberL increasing => ?_) (argsort_inverse_pairwise rows))
    intro i j a b placeI valueA placeJ valueB
    have entry {k : Nat} (member : k ∈ argsort (inverse rows)) :
        disNodeIdx.getD k default ∈ disNodeIdx ∧ rows.getD k default =
          [block.getD ((cumsum 0 (bincount node (List.replicate size 0))).getD
            (disNodeIdx.getD k default) 0 - 1 + 0) 0] := by
      have inside : k < disNodeIdx.length := List.mem_range.mp (order.mem_iff.mp member)
      rw [List.getD_eq_getElem _ _ inside]
      refine ⟨List.getElem_mem inside, ?_⟩
      rw [← res]
      simp [inside]
    obtain ⟨knownK, rowK⟩ := entry memberK
    obtain ⟨knownL, rowL⟩ := entry memberL
    rw [rowK, rowL, block_ _ knownK i a placeI valueA, block_ _ knownL j b placeJ valueB] at increasing
    rcases lt_or_eq_of_le increasing with less | same
    · exact List.head_le_of_lt less
    · exact Nat.le_of_eq (List.head_eq_of_cons_eq same)

/-- The nodes with one pair are ordered by their blocks, as far as the table goes: the two
largest ids are not in it. -/
theorem uniSimple_reorder {node block : List Nat} (sorted : node.Pairwise (· ≤ ·))
    {reorderRes : List Nat} {result : List Nat × List Nat × List Nat}
    (returned : (uniSimple node block 1 reorderRes).2 = some result) :
    ∃ resRet, result.2.2 = reorderRes ++ resRet ∧
      (∀ v, v ∈ resRet ↔ node.count v = 1 ∧ ∃ w ∈ node, v + 1 < w) ∧ resRet.Nodup ∧
      resRet.Pairwise (BlockLe node block) := by
  unfold uniSimple at returned
  cases largest : node.max? with
  | none =>
      rw [largest] at returned
      exact absurd returned (by simp)
  | some top =>
      rw [largest] at returned
      simp only [Nat.one_ne_zero, if_false, List.drop_replicate] at returned
      obtain ⟨resRet, reorder, members, nodup, ordered⟩ :=
        uniRows_one sorted reorderRes (Prod.ext rfl returned)
      refine ⟨resRet, reorder, fun v => (members v).trans ?_, nodup, ordered⟩
      have most (w : Nat) (member : w ∈ node) : w ≤ top :=
        (List.max?_eq_some_iff.mp largest).2 w member
      constructor
      · rintro ⟨inside, single⟩
        exact ⟨single, top, List.max?_mem largest, by omega⟩
      · rintro ⟨single, w, member, above⟩
        have bound := most w member
        exact ⟨by omega, single⟩

/-- The nodes with one pair, each of them once and in the order of their blocks. -/
structure OnceByBlock (node block reorder : List Nat) : Prop where
  once : ∀ v, v ∈ reorder ↔ node.count v = 1
  nodup : reorder.Nodup
  ordered : reorder.Pairwise (BlockLe node block)

/-- The counts stay in their tables, and the nodes with one pair are returned. -/
def UniSimpleSafe (node block : List Nat) : Prop :=
  (∀ call ∈ (uniSimple node block 1 []).1, call.InBounds) ∧
    ∃ result, (uniSimple node block 1 []).2 = some result ∧ OnceByBlock node block result.2.2

/-- The largest node does not fit into the table, and without nodes there is no result. -/
theorem uniSimple_not_safe (node block : List Nat) : ¬UniSimpleSafe node block := by
  rintro ⟨inBounds, result, returned, -⟩
  unfold uniSimple at inBounds returned
  cases largest : node.max? with
  | none =>
      rw [largest] at returned
      exact absurd returned (by simp)
  | some top =>
      rw [largest] at inBounds
      have counted := inBounds _ List.mem_cons_self top (List.max?_mem largest)
      simp only [List.length_drop, List.length_replicate] at counted
      omega

/-- Four nodes with one pair each: the largest two are counted outside the table and are
missing in the list. -/
theorem uniSimple_four : ¬UniSimpleSafe [0, 1, 2, 3] [3, 2, 1, 0] ∧
    (uniSimple [0, 1, 2, 3] [3, 2, 1, 0] 1 []).1.map (·.tableLength) = [2, 1] ∧
    (uniSimple [0, 1, 2, 3] [3, 2, 1, 0] 1 []).2 = some ([2, 3], [1, 0], [1, 0]) := by
  refine ⟨?_, by decide, by decide⟩
  rintro ⟨inBounds, -⟩
  revert inBounds
  decide

end Dolphin.Memory
