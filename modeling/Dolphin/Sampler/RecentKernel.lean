import Dolphin.Graph.SortedCsr
import Dolphin.Sampler.SamplerGPU
import Dolphin.Tensor.Mask
import Dolphin.Tensor.Ragged

/-!
# The most-recent kernel on its tensors

`_CSRRowWiseSampleWithTsRecentKernel` slot by slot, one thread for each root and the
threads in any order. A thread may read the tensors of the graph inside its root's row
only: the kernel is undefined where a read leaves the row, or where the search has not
ended after as many turns as the row has entries. `Sampler_GPU.sample` then keeps the
slots whose `out_src` is above −1.
-/

namespace Dolphin.Sampler

open Dolphin.Graph Dolphin.Tensor

/-! ## The search with checked reads -/

/-- `total_ts[p]` inside the row. -/
def readTs (g : TemporalCsr) (row p : Nat) : Option Nat :=
  if g.InRow row p then some (g.tsAt p) else none

/-- The search loop, with `stop` for `right + 1`. The entry behind the middle is read
only if the middle is before `ts`. -/
def searchChecked (g : TemporalCsr) (row ts : Nat) : Nat → Nat → Nat → Option (Option Nat × Nat)
  | 0, left, stop => if left + 1 < stop then none else some (none, left)
  | fuel + 1, left, stop =>
      if left + 1 < stop then do
        let middle := (left + (stop - 1)) / 2
        let here ← readTs g row middle
        if here < ts then
          let next ← readTs g row (middle + 1)
          if ts ≤ next then some (some middle, left)
          else searchChecked g row ts fuel (middle + 1) stop
        else searchChecked g row ts fuel left middle
      else some (none, left)

/-- `res + 1` for a row with entries. -/
def searchEnd (g : TemporalCsr) (row ts : Nat) : Option Nat := do
  match ← searchChecked g row ts (g.rowEnd row - g.rowStart row) (g.rowStart row)
      (g.rowEnd row) with
  | (some res, _) => some (res + 1)
  | (none, left) =>
      let here ← readTs g row left
      some (if here < ts then left + 1 else g.rowStart row)

/-! ## The kernel -/

/-- `out_src`, `out_dst`, `outts`, `outeid` and `outdts`. -/
@[ext]
structure OutTensors where
  outSrc : List Int
  outDst : List Int
  outts : List Int
  outeid : List Int
  outdts : List Int
  deriving DecidableEq

/-- `torch.zeros(...) - 1`, five times. -/
def OutTensors.initial (size : Nat) : OutTensors :=
  let column := List.replicate size (-1 : Int)
  ⟨column, column, column, column, column⟩

/-- The five assignments of a slot. -/
def OutTensors.write (out : OutTensors) (slot : Nat) (n : Neighbor) : OutTensors where
  outSrc := out.outSrc.set slot n.src
  outDst := out.outDst.set slot n.dst
  outts := out.outts.set slot n.ts
  outeid := out.outeid.set slot n.eid
  outdts := out.outdts.set slot n.dts

/-- What is written for the entry `p` of a root. -/
def neighborAt (g : TemporalCsr) (index ts p : Nat) : Neighbor where
  src := g.indices.getD p 0
  dst := index
  ts := g.totalts.getD p 0
  eid := g.totaleid.getD p 0
  dts := ts

/-- The thread of the root at `index`. -/
def recentThread (g : TemporalCsr) (numPicks : Nat) (roots : List Root) (out : OutTensors)
    (index : Nat) : Option OutTensors :=
  match roots[index]? with
  | none => some out
  | some (row, ts) =>
      if g.rowEnd row ≤ g.rowStart row then some out
      else do
        let stop ← searchEnd g row ts
        let picks := min (stop - g.rowStart row) numPicks
        (List.range picks).foldlM (fun out j =>
          if g.InRow row (stop - 1 - j) then
            some (out.write (index * numPicks + j) (neighborAt g index ts (stop - 1 - j)))
          else none) out

/-- The kernel with its threads in some order. -/
def recentKernel (g : TemporalCsr) (numPicks : Nat) (roots : List Root) (order : List Nat)
    (out : OutTensors) : Option OutTensors :=
  order.foldlM (recentThread g numPicks roots) out

/-- `out[mask]` for `mask = out_src > -1`. -/
def OutTensors.compact (out : OutTensors) : OutTensors :=
  let mask := out.outSrc.map fun src => decide (src > -1)
  ⟨maskSelect mask out.outSrc, maskSelect mask out.outDst, maskSelect mask out.outts,
    maskSelect mask out.outeid, maskSelect mask out.outdts⟩

/-! ## The search ends inside the row -/

variable {g : TemporalCsr}

theorem readTs_eq {row p : Nat} (inRow : g.InRow row p) : readTs g row p = some (g.tsAt p) :=
  if_pos inRow

/-- With enough turns the checked search is the search. -/
theorem searchChecked_eq {row ts fuel left stop : Nat} (start : g.rowStart row ≤ left)
    (ends : stop ≤ g.rowEnd row) (enough : stop ≤ left + 1 + fuel) :
    searchChecked g row ts fuel left stop = some (g.searchRecent ts fuel left stop) := by
  induction fuel generalizing left stop with
  | zero =>
      rw [searchChecked, if_neg (by omega)]
      rfl
  | succ fuel ih =>
      rw [searchChecked, TemporalCsr.searchRecent]
      split
      case isFalse => rfl
      case isTrue wide =>
          have middle : g.InRow row ((left + (stop - 1)) / 2) := ⟨by omega, by omega⟩
          have next : g.InRow row ((left + (stop - 1)) / 2 + 1) := ⟨by omega, by omega⟩
          simp only [readTs_eq middle, readTs_eq next, Option.bind_eq_bind, Option.bind_some]
          have here : g.totalts.getD ((left + (stop - 1)) / 2) 0 =
              g.tsAt ((left + (stop - 1)) / 2) := rfl
          have after : g.totalts.getD ((left + (stop - 1)) / 2 + 1) 0 =
              g.tsAt ((left + (stop - 1)) / 2 + 1) := rfl
          rw [here, after]
          by_cases early : g.tsAt ((left + (stop - 1)) / 2) < ts
          · rw [if_pos early]
            by_cases late : ts ≤ g.tsAt ((left + (stop - 1)) / 2 + 1)
            · rw [if_pos late, if_pos ⟨early, late⟩]
            · rw [if_neg late, if_neg fun both => late both.2, if_pos early]
              exact ih (by omega) ends (by omega)
          · rw [if_neg early, if_neg fun both => early both.1, if_neg early]
            exact ih start (by omega) (by omega)

/-- Where the search of a row ends it reads inside the row. -/
theorem searchRecent_left {row ts fuel left stop : Nat} (low : g.rowStart row ≤ left)
    (inside : left < g.rowEnd row) (ends : stop ≤ g.rowEnd row) :
    g.InRow row (g.searchRecent ts fuel left stop).2 := by
  induction fuel generalizing left stop with
  | zero => exact ⟨low, inside⟩
  | succ fuel ih =>
      rw [TemporalCsr.searchRecent]
      split
      case isFalse => exact ⟨low, inside⟩
      case isTrue wide =>
          simp only
          split
          · exact ⟨low, inside⟩
          · split
            · exact ih (by omega) (by omega) ends
            · exact ih low inside (by omega)

/-- The checked search finds the boundary of the row. -/
theorem searchEnd_eq {row : Nat} (nonempty : g.rowStart row < g.rowEnd row) (ts : Nat) :
    searchEnd g row ts = some (g.recentEnd row ts) := by
  have checked := @searchChecked_eq g row ts (g.rowEnd row - g.rowStart row) (g.rowStart row)
    (g.rowEnd row) (Nat.le_refl _) (Nat.le_refl _) (by omega)
  have last := @searchRecent_left g row ts (g.rowEnd row - g.rowStart row) (g.rowStart row)
    (g.rowEnd row) (Nat.le_refl _) nonempty (Nat.le_refl _)
  rw [searchEnd, checked, TemporalCsr.recentEnd, if_neg (by omega)]
  generalize g.searchRecent ts (g.rowEnd row - g.rowStart row) (g.rowStart row)
    (g.rowEnd row) = result at last
  obtain ⟨found, left⟩ := result
  cases found with
  | some res => rfl
  | none =>
      simp only [Option.bind_eq_bind, Option.bind_some, readTs_eq last]
      rfl

/-! ## The slots -/

/-- The five tensors of a list of slots; −1 where nothing is written. -/
def OutTensors.ofSlots (slots : List (Option Neighbor)) : OutTensors where
  outSrc := slots.map fun slot => slot.elim (-1) fun n => (n.src : Int)
  outDst := slots.map fun slot => slot.elim (-1) fun n => (n.dst : Int)
  outts := slots.map fun slot => slot.elim (-1) fun n => (n.ts : Int)
  outeid := slots.map fun slot => slot.elim (-1) fun n => (n.eid : Int)
  outdts := slots.map fun slot => slot.elim (-1) fun n => (n.dts : Int)

theorem OutTensors.initial_eq (size : Nat) :
    OutTensors.initial size = .ofSlots (List.replicate size none) := by
  ext1 <;> simp [OutTensors.initial, OutTensors.ofSlots]

theorem OutTensors.write_ofSlots (slots : List (Option Neighbor)) (slot : Nat) (n : Neighbor) :
    (OutTensors.ofSlots slots).write slot n = .ofSlots (slots.set slot (some n)) := by
  ext1 <;> simp [OutTensors.write, OutTensors.ofSlots, List.map_set]

/-- Compaction keeps the slots that are written. -/
theorem OutTensors.compact_ofSlots (slots : List (Option Neighbor)) :
    (OutTensors.ofSlots slots).compact = .ofSlots ((slots.filterMap id).map some) := by
  have columns : ∀ column : Neighbor → Int,
      maskSelect ((slots.map fun slot => slot.elim (-1) fun n => (n.src : Int)).map
          fun src => decide (src > -1))
        (slots.map fun slot => slot.elim (-1) column) =
      ((slots.filterMap id).map some).map fun slot => slot.elim (-1) column := by
    intro column
    induction slots with
    | nil => rfl
    | cons slot slots ih =>
        cases slot with
        | none => simpa using ih
        | some n =>
            have written : decide ((n.src : Int) > -1) = true := by
              rw [decide_eq_true_iff]
              omega
            simpa [written] using ih
  ext1 <;> exact columns _

/-- What the writes of one thread leave in the slots. -/
def writeRow (slots : List (Option Neighbor)) (start : Nat) (value : Nat → Neighbor)
    (picks : Nat) : List (Option Neighbor) :=
  (List.range picks).foldl (fun slots j => slots.set (start + j) (some (value j))) slots

@[simp] theorem writeRow_length (slots : List (Option Neighbor)) (start : Nat)
    (value : Nat → Neighbor) (picks : Nat) :
    (writeRow slots start value picks).length = slots.length := by
  unfold writeRow
  induction picks with
  | zero => rfl
  | succ picks ih => rw [List.range_succ, List.foldl_append, List.foldl_cons, List.foldl_nil,
      List.length_set, ih]

theorem writeRow_getElem? {slots : List (Option Neighbor)} {start picks : Nat}
    (room : start + picks ≤ slots.length) (value : Nat → Neighbor) (k : Nat) :
    (writeRow slots start value picks)[k]? =
      if start ≤ k ∧ k < start + picks then some (some (value (k - start))) else slots[k]? := by
  induction picks with
  | zero => rw [if_neg (by omega)]; rfl
  | succ picks ih =>
      have before := ih (by omega)
      have step : writeRow slots start value (picks + 1) =
          (writeRow slots start value picks).set (start + picks) (some (value picks)) := by
        rw [writeRow, List.range_succ, List.foldl_append]
        rfl
      rw [step, List.getElem?_set, before, writeRow_length]
      by_cases own : start + picks = k
      · subst own
        rw [if_pos rfl, if_pos (by omega), if_pos (by omega), Nat.add_sub_cancel_left]
      · rw [if_neg own]
        by_cases earlier : start ≤ k ∧ k < start + picks
        · rw [if_pos earlier, if_pos (by omega)]
        · rw [if_neg earlier, if_neg (by omega)]

/-! ## The threads -/

theorem sampleRow_length (g : TemporalCsr) (fanNum index : Nat) (root : Root) :
    (sampleRow g fanNum index root).length = fanNum := by
  simp [sampleRow]

/-- The slots when some threads are done. -/
structure Filled (g : TemporalCsr) (fanNum : Nat) (roots : List Root) (done : List Nat)
    (slots : List (Option Neighbor)) : Prop where
  length : slots.length = roots.length * fanNum
  slot : ∀ index root j, roots[index]? = some root → j < fanNum →
    slots[index * fanNum + j]? =
      if index ∈ done then (sampleRow g fanNum index root)[j]? else some none

theorem filled_initial (g : TemporalCsr) (fanNum : Nat) (roots : List Root) :
    Filled g fanNum roots [] (List.replicate (roots.length * fanNum) none) where
  length := List.length_replicate
  slot := by
    intro index root j own bound
    have inside : index < roots.length := (List.getElem?_eq_some_iff.mp own).1
    have room : index * fanNum + j < roots.length * fanNum := by
      calc index * fanNum + j < (index + 1) * fanNum := by rw [Nat.succ_mul]; omega
        _ ≤ roots.length * fanNum := Nat.mul_le_mul_right _ inside
    rw [List.getElem?_replicate, if_pos room, if_neg List.not_mem_nil]

/-- A slot belongs to one thread. -/
theorem slot_unique {fanNum index other j k : Nat} (left : j < fanNum)
    (inside : index * fanNum ≤ other * fanNum + j)
    (ends : other * fanNum + j < index * fanNum + k) (right : k ≤ fanNum) : index = other := by
  rcases Nat.lt_trichotomy index other with less | same | more
  · have apart : (index + 1) * fanNum ≤ other * fanNum := Nat.mul_le_mul_right _ less
    rw [Nat.succ_mul] at apart
    omega
  · exact same
  · have apart : (other + 1) * fanNum ≤ index * fanNum := Nat.mul_le_mul_right _ more
    rw [Nat.succ_mul] at apart
    omega

/-- A thread's writes, if all the entries it reads are in its row. -/
theorem writes_eq {row stop picks : Nat} (inside : ∀ j < picks, g.InRow row (stop - 1 - j))
    (start index ts : Nat) (slots : List (Option Neighbor)) :
    ((List.range picks).foldlM (fun out j =>
        if g.InRow row (stop - 1 - j) then
          some (OutTensors.write out (start + j) (neighborAt g index ts (stop - 1 - j)))
        else none) (.ofSlots slots)) =
      some (.ofSlots (writeRow slots start
        (fun j => neighborAt g index ts (stop - 1 - j)) picks)) := by
  induction picks with
  | zero => rfl
  | succ picks ih =>
      have here := inside picks (Nat.lt_succ_self picks)
      rw [List.range_succ, List.foldlM_append, ih fun j bound => inside j (by omega)]
      simp only [Option.bind_eq_bind, Option.bind_some, List.foldlM_cons, List.foldlM_nil,
        if_pos here, OutTensors.write_ofSlots, writeRow, List.range_succ, List.foldl_append,
        List.foldl_cons, List.foldl_nil]
      rfl

/-- A thread fills the slots of its root. -/
theorem Filled.thread (sorted : ∀ row, g.SortedRow row) {fanNum : Nat} {roots : List Root}
    {done : List Nat} {slots : List (Option Neighbor)} (filled : Filled g fanNum roots done slots)
    {index : Nat} {root : Root} (own : roots[index]? = some root) :
    ∃ next, recentThread g fanNum roots (.ofSlots slots) index = some (.ofSlots next) ∧
      Filled g fanNum roots (index :: done) next := by
  obtain ⟨row, ts⟩ := root
  obtain ⟨low, high, -⟩ := TemporalCsr.recentEnd_spec (sorted row) ts
  have bound : index < roots.length := (List.getElem?_eq_some_iff.mp own).1
  have room : index * fanNum + fanNum ≤ slots.length := by
    rw [filled.length, ← Nat.succ_mul]
    exact Nat.mul_le_mul_right _ bound
  have picks : min (g.recentEnd row ts - g.rowStart row) fanNum ≤ fanNum := Nat.min_le_right _ _
  have run : recentThread g fanNum roots (.ofSlots slots) index =
      some (.ofSlots (writeRow slots (index * fanNum)
        (fun j => neighborAt g index ts (g.recentEnd row ts - 1 - j))
        (min (g.recentEnd row ts - g.rowStart row) fanNum))) := by
    rw [recentThread, own]
    by_cases empty : g.rowEnd row ≤ g.rowStart row
    · have start : g.recentEnd row ts = g.rowStart row := if_pos empty
      simp only [if_pos empty, start, Nat.sub_self, Nat.zero_min]
      rfl
    · simp only [if_neg empty, searchEnd_eq (Nat.not_le.mp empty), Option.bind_eq_bind,
        Option.bind_some]
      exact writes_eq (fun j picked => ⟨by omega, by omega⟩) _ _ _ _
  refine ⟨_, run, ⟨by rw [writeRow_length, filled.length], ?_⟩⟩
  intro other otherRoot j otherOwn inFan
  rw [writeRow_getElem? (by omega), filled.slot other otherRoot j otherOwn inFan]
  by_cases same : other = index
  · subst same
    obtain rfl : (row, ts) = otherRoot := Option.some.inj (own.symm.trans otherOwn)
    rw [if_pos (List.mem_cons_self ..)]
    have value : (sampleRow g fanNum other (row, ts))[j]? =
        some (if j < min (g.recentEnd row ts - g.rowStart row) fanNum then
          some (neighborAt g other ts (g.recentEnd row ts - 1 - j)) else none) := by
      simp [sampleRow, neighborAt, inFan]
    rw [value]
    by_cases picked : j < min (g.recentEnd row ts - g.rowStart row) fanNum
    · rw [if_pos ⟨by omega, by omega⟩, if_pos picked, Nat.add_sub_cancel_left]
    · rw [if_neg fun inside => picked (by omega), if_neg picked, ite_self]
  · have apart : ¬(index * fanNum ≤ other * fanNum + j ∧ other * fanNum + j < index * fanNum +
        min (g.recentEnd row ts - g.rowStart row) fanNum) :=
      fun inside => same (slot_unique inFan inside.1 inside.2 picks).symm
    rw [if_neg apart]
    simp [same]

/-- The threads of some roots, in any order. -/
theorem Filled.kernel (sorted : ∀ row, g.SortedRow row) {fanNum : Nat} {roots : List Root}
    {done order : List Nat} {slots : List (Option Neighbor)}
    (filled : Filled g fanNum roots done slots) (known : ∀ index ∈ order, index < roots.length) :
    ∃ next, recentKernel g fanNum roots order (.ofSlots slots) = some (.ofSlots next) ∧
      Filled g fanNum roots (order.reverse ++ done) next := by
  induction order generalizing done slots with
  | nil => exact ⟨slots, rfl, filled⟩
  | cons index order ih =>
      obtain ⟨here, rest⟩ := List.forall_mem_cons.mp known
      obtain ⟨between, thread, after⟩ := filled.thread sorted (List.getElem?_eq_getElem here)
      obtain ⟨next, run, last⟩ := ih after rest
      refine ⟨next, ?_, ?_⟩
      · rw [recentKernel, List.foldlM_cons, thread]
        exact run
      · simpa using last

/-- When every thread is done, the slots are those of `sample`. -/
theorem Filled.complete {fanNum : Nat} {roots : List Root} {done : List Nat}
    {slots : List (Option Neighbor)} (filled : Filled g fanNum roots done slots)
    (all : ∀ index < roots.length, index ∈ done) :
    slots = roots.zipIdx.flatMap fun root => sampleRow g fanNum root.2 root.1 := by
  have sized : ∀ root ∈ roots.zipIdx, (sampleRow g fanNum root.2 root.1).length = fanNum :=
    fun root _ => sampleRow_length g fanNum root.2 root.1
  apply List.ext_getElem?
  intro k
  by_cases inside : k < roots.length * fanNum
  · have positive : 0 < fanNum := Nat.pos_of_mul_pos_left (Nat.zero_lt_of_lt inside)
    have row : k / fanNum < roots.length := (Nat.div_lt_iff_lt_mul positive).mpr inside
    have column : k % fanNum < fanNum := Nat.mod_lt k positive
    have split : k = k / fanNum * fanNum + k % fanNum := (Nat.div_add_mod' k fanNum).symm
    rw [split, filled.slot _ _ _ (List.getElem?_eq_getElem row) column, if_pos (all _ row),
      getElem?_flatMap_width sized column]
    simp [row]
  · rw [List.getElem?_eq_none, List.getElem?_eq_none]
    · rw [length_flatMap_width sized, List.length_zipIdx]
      exact Nat.not_lt.mp inside
    · rw [filled.length]
      exact Nat.not_lt.mp inside

/-- The row of a root holds its most recent entries, newest first. -/
theorem sampleRow_getElem? {row : Nat} (sorted : g.SortedRow row) {fanNum j : Nat}
    (inFan : j < fanNum) (index ts : Nat) :
    (sampleRow g fanNum index (row, ts))[j]? =
      some ((g.recent fanNum row ts)[j]?.map (neighborAt g index ts)) := by
  rw [TemporalCsr.recent_eq_map sorted, List.getElem?_map]
  by_cases picked : j < min (g.recentEnd row ts - g.rowStart row) fanNum
  · rw [List.getElem?_range picked]
    simp only [sampleRow, List.getElem?_map, List.getElem?_range inFan, Option.map_some,
      if_pos picked]
    rfl
  · have beyond : (List.range (min (g.recentEnd row ts - g.rowStart row) fanNum))[j]? = none := by
      rw [List.getElem?_eq_none_iff, List.length_range]
      exact Nat.not_lt.mp picked
    rw [beyond]
    simp only [sampleRow, List.getElem?_map, List.getElem?_range inFan, Option.map_some,
      if_neg picked, Option.map_none]

/-- The filled slots of a root are its most recent entries. -/
theorem sampleRow_filterMap {row : Nat} (sorted : g.SortedRow row) (fanNum index ts : Nat) :
    (sampleRow g fanNum index (row, ts)).filterMap id =
      (g.recent fanNum row ts).map (neighborAt g index ts) := by
  rw [TemporalCsr.recent_eq_map sorted, List.map_map]
  exact filterMap_range _ (Nat.min_le_right _ _)

/-- The filled slots of all roots, root by root. -/
theorem sample_out (sorted : ∀ row, g.SortedRow row) (fanNum : Nat) (roots : List Root) :
    (sample g fanNum roots).out = roots.zipIdx.flatMap fun root =>
      (g.recent fanNum root.1.1 root.1.2).map (neighborAt g root.2 root.1.2) := by
  rw [sample, List.filterMap_flatMap]
  exact List.flatMap_congr fun root _ => sampleRow_filterMap (sorted root.1.1) _ _ _

/-- What the compaction leaves of the slots. -/
theorem recentKernel_compact (sorted : ∀ row, g.SortedRow row) (fanNum : Nat) (roots : List Root)
    {order : List Nat} (perm : order.Perm (List.range roots.length)) :
    ∃ out, recentKernel g fanNum roots order (.initial (roots.length * fanNum)) = some out ∧
      out.compact = .ofSlots ((roots.zipIdx.flatMap fun root =>
        (g.recent fanNum root.1.1 root.1.2).map (neighborAt g root.2 root.1.2)).map some) := by
  obtain ⟨slots, run, filled⟩ := (filled_initial g fanNum roots).kernel sorted
    fun index member => List.mem_range.mp (perm.mem_iff.mp member)
  refine ⟨.ofSlots slots, ?_, ?_⟩
  · rw [OutTensors.initial_eq, run]
  · rw [OutTensors.compact_ofSlots, filled.complete, ← sample_out sorted]
    · rfl
    intro index bound
    rw [List.append_nil, List.mem_reverse]
    exact perm.mem_iff.mpr (List.mem_range.mpr bound)

/-- Whatever the order of the threads, the kernel reads only inside the rows of its roots
and leaves in the slots of each root its most recent earlier entries, newest first, and −1
behind them; the compaction leaves just these entries, root by root. -/
theorem recentKernel_exact (sorted : ∀ row, g.SortedRow row) (fanNum : Nat) (roots : List Root)
    (order : List Nat) (perm : order.Perm (List.range roots.length)) :
    ∃ slots, recentKernel g fanNum roots order (.initial (roots.length * fanNum)) =
        some (.ofSlots slots) ∧
      slots.length = roots.length * fanNum ∧
      (∀ index row ts, roots[index]? = some (row, ts) →
        (g.recent fanNum row ts).length = min fanNum (g.before row ts).length ∧
        ∀ j < fanNum, slots[index * fanNum + j]? =
          some ((g.recent fanNum row ts)[j]?.map (neighborAt g index ts))) ∧
      (OutTensors.ofSlots slots).compact =
        .ofSlots ((roots.zipIdx.flatMap fun root =>
          (g.recent fanNum root.1.1 root.1.2).map (neighborAt g root.2 root.1.2)).map some) := by
  have known : ∀ index ∈ order, index < roots.length :=
    fun index member => List.mem_range.mp (perm.mem_iff.mp member)
  obtain ⟨slots, run, filled⟩ := (filled_initial g fanNum roots).kernel sorted known
  have all : ∀ index < roots.length, index ∈ order.reverse ++ [] := by
    intro index bound
    rw [List.append_nil, List.mem_reverse]
    exact perm.mem_iff.mpr (List.mem_range.mpr bound)
  refine ⟨slots, ?_, filled.length, ?_, ?_⟩
  · rw [OutTensors.initial_eq, run]
  · intro index row ts own
    refine ⟨TemporalCsr.recent_length fanNum row ts, fun j inFan => ?_⟩
    rw [filled.slot index (row, ts) j own inFan,
      if_pos (all index (List.getElem?_eq_some_iff.mp own).1),
      sampleRow_getElem? (sorted row) inFan]
  · rw [OutTensors.compact_ofSlots, filled.complete all]
    exact congrArg (fun out => OutTensors.ofSlots (out.map some)) (sample_out sorted fanNum roots)

/-- One node with the times 1, 2 and 2. -/
def oneRow : TemporalCsr := ⟨[0, 3], [7, 8, 9], [1, 2, 2], [0, 1, 2]⟩

theorem oneRow_sorted (row : Nat) : oneRow.SortedRow row := by
  intro p q start order inside
  match row with
  | 0 =>
      have bound : q < 3 := inside
      obtain rfl | rfl | rfl : q = 0 ∨ q = 1 ∨ q = 2 := by omega
      all_goals revert order; revert p; decide
  | row + 1 => exact absurd inside (by simp [TemporalCsr.rowEnd, oneRow])

/-- Ties at the time of a root are not sampled. -/
theorem recentKernel_exact_oneRow :
    ∃ slots, recentKernel oneRow 2 [(0, 2), (0, 3)] [1, 0] (.initial 4) =
        some (.ofSlots slots) ∧
      slots[0]? = some (some (neighborAt oneRow 0 2 0)) ∧ slots[1]? = some none ∧
      slots[3]? = some (some (neighborAt oneRow 1 3 1)) := by
  obtain ⟨slots, run, -, rows, -⟩ :=
    recentKernel_exact oneRow_sorted 2 [(0, 2), (0, 3)] [1, 0] (List.Perm.swap _ _ _)
  refine ⟨slots, run, ?_, ?_, ?_⟩
  · exact (rows 0 0 2 rfl).2 0 (by decide)
  · exact (rows 0 0 2 rfl).2 1 (by decide)
  · exact (rows 1 0 3 rfl).2 1 (by decide)

end Dolphin.Sampler
