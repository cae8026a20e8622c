import Dolphin.Eid.SpanningEdges

/-!
# The bound on the staleness of a batch

A batch takes an edge while `batch_staleness` is below the threshold. The loop that
takes edges with a new node adds one at most, so it stops at the threshold. The loop
that takes any edges adds two: from one below the threshold it ends one above.
-/

namespace Dolphin.Eid

open Dolphin.Sampler Dolphin.Semantics

/-- The staleness of a batch is within a limit, or within that of the first edges it was
started from. -/
def BatchBounded (stream : EdgeStream) (limit : Int) (batch : List Nat) : Prop :=
  calculateStaleness stream batch ≤ max limit (calculateStaleness stream (batch.take 2000))

/-- What holds of the numbers while a batch is built. -/
structure BoundedVars (stream : EdgeStream) (limit : Int) (vars : SplitVars) : Prop where
  earlier : ∀ batch ∈ vars.eidResult, BatchBounded stream limit batch
  full : vars.curEid ≠ [] → 2000 ≤ vars.admitted.length
  low : calculateStaleness stream (vars.admitted.take 2000) ≤ vars.batchStaleness
  high : vars.batchStaleness ≤
    max limit (calculateStaleness stream (vars.admitted.take 2000))

/-- What holds of the batches and the numbers at a point. -/
def SplitPoint.Bounded (stream : EdgeStream) (limit : Int) : SplitPoint → Prop
  | .outer eidResult _ => ∀ batch ∈ eidResult, BatchBounded stream limit batch
  | .incre vars => BoundedVars stream limit vars
  | .fill vars => BoundedVars stream limit vars

/-- The edges that are left at a point. -/
def SplitPoint.left : SplitPoint → List Nat
  | .outer _ curEid => curEid
  | .incre vars => vars.curEid
  | .fill vars => vars.curEid

/-- The batches that are complete at a point. -/
def SplitPoint.results : SplitPoint → List (List Nat)
  | .outer eidResult _ => eidResult
  | .incre vars => vars.eidResult
  | .fill vars => vars.eidResult

section Runs

variable {stream : EdgeStream} {threshold limit : Int} {vars : SplitVars} {curEid : List Nat}

/-! ## What a run keeps -/

/-- Edges are taken away only. -/
theorem splitStep_left {before after : SplitPoint}
    (transition : splitStep stream threshold before = some after) : after.left ⊆ before.left := by
  cases before with
  | outer eidResult eids =>
      obtain ⟨-, rfl⟩ := splitStep_outer transition
      exact List.drop_subset _ _
  | incre vars =>
      rcases splitStep_incre transition with ⟨eid, -, -, rfl⟩ | ⟨-, rfl⟩
      · simp [SplitPoint.left]
      · exact fun eid member => mem_of_mem_deletePicked member
  | fill vars =>
      rcases splitStep_fill transition with ⟨eid, -, -, rfl⟩ | rfl
      · exact List.Subset.refl _
      · exact List.drop_subset _ _

theorem SplitReaches.left {point : SplitPoint}
    (run : SplitReaches stream threshold curEid point) : point.left ⊆ curEid := by
  induction run with
  | refl => exact List.Subset.refl _
  | tail _ transition ih => exact List.Subset.trans (splitStep_left transition) ih

/-- Batches are added only. -/
theorem splitStep_results {before after : SplitPoint}
    (transition : splitStep stream threshold before = some after) :
    before.results ⊆ after.results := by
  cases before with
  | outer eidResult eids =>
      obtain ⟨-, rfl⟩ := splitStep_outer transition
      exact List.Subset.refl _
  | incre vars =>
      rcases splitStep_incre transition with ⟨eid, -, -, rfl⟩ | ⟨-, rfl⟩
      · simp [SplitPoint.results]
      · exact List.Subset.refl _
  | fill vars =>
      rcases splitStep_fill transition with ⟨eid, -, -, rfl⟩ | rfl
      · exact List.Subset.refl _
      · exact List.subset_append_left _ _

theorem reaches_results {before after : SplitPoint}
    (run : Reaches (splitStep stream threshold) before after) :
    before.results ⊆ after.results := by
  induction run with
  | refl => exact List.Subset.refl _
  | tail _ transition ih => exact List.Subset.trans ih (splitStep_results transition)

/-- Edges without self-loops leave the running number right. -/
theorem SplitReaches.tracked_of_loopless
    (loopless : ∀ eid ∈ curEid, stream.src.getD eid 0 ≠ stream.dst.getD eid 0)
    {point : SplitPoint} (run : SplitReaches stream threshold curEid point) :
    point.Tracked stream := by
  refine run.tracked ?_
  intro point reached
  cases point with
  | outer eidResult eids => exact trivial
  | fill vars => exact trivial
  | incre vars =>
      intro _ eid here fresh
      exact loopless eid (reached.left (List.mem_of_getElem? here)) fresh.1

/-! ## One step -/

/-- The first edges of a batch. -/
theorem BoundedVars.start (stream : EdgeStream) {eidResult : List (List Nat)}
    (earlier : ∀ batch ∈ eidResult, BatchBounded stream limit batch) (eids : List Nat) :
    BoundedVars stream limit (SplitVars.start stream eidResult eids) := by
  have tracked : (SplitVars.start stream eidResult eids).batchStaleness = calculateStaleness
    stream (SplitVars.start stream eidResult eids).admitted :=
      SplitVars.start_tracked stream eidResult eids
  have admitted := SplitVars.start_admitted stream eidResult eids
  have chunk : (eids.take 2000).take 2000 = eids.take 2000 := by rw [List.take_take, Nat.min_self]
  refine ⟨earlier, ?_, ?_, ?_⟩
  · intro nonempty
    have longer := List.length_lt_of_drop_ne_nil nonempty
    rw [admitted, List.length_take]
    omega
  · rw [tracked, admitted, chunk]
  · rw [tracked, admitted, chunk]
    exact le_max_right _ _

/-- A further edge leaves the first edges of a batch as they are. -/
theorem BoundedVars.chunk_concat (bounded : BoundedVars stream limit vars) {i eid : Nat}
    (here : vars.curEid[i]? = some eid) :
    (vars.admitted ++ [eid]).take 2000 = vars.admitted.take 2000 :=
  List.take_append_of_le_length (bounded.full (List.ne_nil_of_mem (List.mem_of_getElem? here)))

/-- A delta that is not two is zero or one. -/
theorem calculateDelta_new {nodes : List Nat} {eid : Nat}
    (new : calculateDelta stream nodes eid ≠ 2) :
    0 ≤ calculateDelta stream nodes eid ∧ calculateDelta stream nodes eid ≤ 1 := by
  unfold calculateDelta at new ⊢
  dsimp only at new ⊢
  split at new <;> split at new <;> simp_all

/-- A turn of the loop that takes edges with a new node. -/
theorem BoundedVars.increTurn (bounded : BoundedVars stream limit vars) (room : threshold ≤ limit)
    {eid : Nat} (below : vars.batchStaleness < threshold)
    (here : vars.curEid[vars.eidIdx]? = some eid) :
    BoundedVars stream limit (vars.increTurn stream eid) := by
  by_cases known : calculateDelta stream vars.nodes eid = 2
  · rw [SplitVars.increTurn_known known]
    exact ⟨bounded.earlier, bounded.full, bounded.low, bounded.high⟩
  · obtain ⟨least, most⟩ := calculateDelta_new known
    have admitted := SplitVars.increTurn_admitted known
    have staleness := SplitVars.increTurn_batchStaleness known
    refine ⟨?_, ?_, ?_, ?_⟩
    · rw [SplitVars.increTurn_eidResult]
      exact bounded.earlier
    · intro nonempty
      rw [SplitVars.increTurn_curEid] at nonempty
      rw [admitted, List.length_append]
      exact Nat.le_add_right_of_le (bounded.full nonempty)
    · rw [admitted, bounded.chunk_concat here, staleness]
      have low := bounded.low
      omega
    · rw [staleness]
      exact le_max_of_le_left (by omega)

/-- The end of that loop. -/
theorem BoundedVars.increEnd (bounded : BoundedVars stream limit vars) :
    BoundedVars stream limit vars.increEnd := by
  refine ⟨bounded.earlier, ?_, ?_, ?_⟩
  · intro nonempty
    obtain ⟨eid, kept⟩ := List.exists_mem_of_ne_nil _ nonempty
    rw [SplitVars.increEnd_admitted]
    exact bounded.full (List.ne_nil_of_mem (mem_of_mem_deletePicked kept))
  · rw [SplitVars.increEnd_admitted]
    exact bounded.low
  · rw [SplitVars.increEnd_admitted]
    exact bounded.high

/-- A turn of the loop that takes any edges. -/
theorem BoundedVars.fillTurn (bounded : BoundedVars stream limit vars) (none : vars.incre = [])
    {eid : Nat} (room : vars.batchStaleness + 2 ≤ limit)
    (here : vars.curEid[vars.eidIdx]? = some eid) :
    BoundedVars stream limit (vars.fillTurn eid) := by
  have admitted := SplitVars.fillTurn_admitted none eid
  refine ⟨bounded.earlier, ?_, ?_, ?_⟩
  · intro nonempty
    rw [admitted, List.length_append]
    exact Nat.le_add_right_of_le (bounded.full nonempty)
  · rw [admitted, bounded.chunk_concat here]
    exact bounded.low.trans (Int.le_add_of_nonneg_right (by decide))
  · exact le_max_of_le_left room

/-- A batch is complete. -/
theorem BoundedVars.fillEnd (bounded : BoundedVars stream limit vars) (none : vars.incre = [])
    (tracked : (SplitPoint.fill vars).Tracked stream) :
    ∀ batch ∈ vars.eidResult ++ [vars.curBatchEid], BatchBounded stream limit batch := by
  intro batch member
  rcases List.mem_append.mp member with earlier | own
  · exact bounded.earlier batch earlier
  · obtain rfl := List.mem_singleton.mp own
    have value : vars.batchStaleness = calculateStaleness stream vars.admitted := tracked
    have high := bounded.high
    rw [value, SplitVars.admitted_of_incre none] at high
    exact high

/-! ## A whole run -/

/-- Every batch of a run is within a limit that the loop that takes any edges does not
overstep. -/
theorem SplitReaches.bounded
    (loopless : ∀ eid ∈ curEid, stream.src.getD eid 0 ≠ stream.dst.getD eid 0)
    (reaches : threshold ≤ limit)
    (room : ∀ vars eid, SplitReaches stream threshold curEid (.fill vars) →
      vars.batchStaleness < threshold → vars.curEid[vars.eidIdx]? = some eid →
      vars.batchStaleness + 2 ≤ limit)
    {point : SplitPoint} (run : SplitReaches stream threshold curEid point) :
    point.Bounded stream limit := by
  refine Reaches.invariant run (fun _ member => absurd member List.not_mem_nil) ?_
  intro before after reached bounded transition
  have inv := SplitReaches.inv reached
  cases before with
  | outer eidResult eids =>
      obtain ⟨-, rfl⟩ := splitStep_outer transition
      exact BoundedVars.start stream bounded eids
  | incre vars =>
      rcases splitStep_incre transition with ⟨eid, below, here, rfl⟩ | ⟨-, rfl⟩
      · exact BoundedVars.increTurn bounded reaches below here
      · exact BoundedVars.increEnd bounded
  | fill vars =>
      have none : vars.incre = [] := Filling.incre inv
      rcases splitStep_fill transition with ⟨eid, below, here, rfl⟩ | rfl
      · exact BoundedVars.fillTurn bounded none (room vars eid reached below here) here
      · exact BoundedVars.fillEnd bounded none (SplitReaches.tracked_of_loopless loopless reached)

/-- No batch exceeds the threshold by more than one. -/
theorem adaptiveSplit_le_succ
    (loopless : ∀ eid ∈ curEid, stream.src.getD eid 0 ≠ stream.dst.getD eid 0)
    {batches : List (List Nat)} (split : adaptiveSplit stream threshold curEid = some batches) :
    ∀ batch ∈ batches, BatchBounded stream (threshold + 1) batch :=
  SplitReaches.bounded loopless (by omega) (fun _ _ _ below _ => by omega)
    (adaptiveSplit_reaches stream threshold split)

/-- Filling up from one below the threshold makes a batch that exceeds it. -/
theorem exists_exceeding
    (loopless : ∀ eid ∈ curEid, stream.src.getD eid 0 ≠ stream.dst.getD eid 0)
    (run : SplitReaches stream threshold curEid (.fill vars))
    (near : vars.batchStaleness = threshold - 1) (left : vars.eidIdx < vars.curEid.length)
    {batches : List (List Nat)} (split : adaptiveSplit stream threshold curEid = some batches) :
    ∃ batch ∈ batches, ¬BatchBounded stream threshold batch := by
  have here := List.getElem?_eq_getElem left
  have none : vars.incre = [] := Filling.incre run.inv
  have bounded : BoundedVars stream (threshold + 1) vars :=
    SplitReaches.bounded loopless (by omega) (fun _ _ _ below _ => by omega) run
  have next : SplitReaches stream threshold curEid
      (.fill (vars.fillTurn vars.curEid[vars.eidIdx])) :=
    Reaches.tail run (splitStep_fillTurn (by omega) here)
  generalize vars.curEid[vars.eidIdx] = eid at *
  have exceeds : (vars.fillTurn eid).batchStaleness = threshold + 1 := by
    change vars.batchStaleness + 2 = threshold + 1
    omega
  have complete : splitStep stream threshold (.fill (vars.fillTurn eid)) =
      some (.outer (vars.eidResult ++ [vars.curBatchEid ++ [eid]])
        (vars.curEid.drop (vars.eidIdx + 1))) := by
    rw [splitStep, if_neg (by omega)]
    rfl
  have ends := Reaches.to_final (adaptiveSplit_reaches stream threshold split) rfl
    (Reaches.tail next complete)
  have member : vars.curBatchEid ++ [eid] ∈ batches :=
    reaches_results ends (List.mem_append_right _ (List.mem_singleton_self _))
  refine ⟨_, member, fun within => ?_⟩
  have admitted := SplitVars.admitted_of_incre none
  have staleness : (vars.fillTurn eid).batchStaleness =
      calculateStaleness stream (vars.fillTurn eid).admitted :=
    SplitReaches.tracked_of_loopless loopless next
  have grown := SplitVars.fillTurn_admitted none eid
  rw [admitted] at grown
  have low := bounded.low
  rw [← bounded.chunk_concat here, admitted] at low
  rw [BatchBounded, ← grown, ← staleness, exceeds, grown] at within
  rcases le_max_iff.mp within with above | above <;> omega

/-- Without such a point every batch is within the threshold. -/
theorem adaptiveSplit_bounded
    (loopless : ∀ eid ∈ curEid, stream.src.getD eid 0 ≠ stream.dst.getD eid 0)
    (never : ∀ vars, SplitReaches stream threshold curEid (.fill vars) →
      vars.batchStaleness = threshold - 1 → vars.curEid.length ≤ vars.eidIdx)
    {batches : List (List Nat)} (split : adaptiveSplit stream threshold curEid = some batches) :
    ∀ batch ∈ batches, BatchBounded stream threshold batch := by
  refine SplitReaches.bounded loopless le_rfl ?_ (adaptiveSplit_reaches stream threshold split)
  intro vars eid run below here
  have inside := (List.getElem?_eq_some_iff.mp here).1
  by_contra above
  exact absurd (never vars run (by omega)) (Nat.not_le.mpr inside)

/-! ## The list a batch starts with -/

/-- The loops of a batch work on the list that was left when it started. -/
def SplitPoint.Started (stream : EdgeStream) (threshold : Int) (curEid : List Nat) :
    SplitPoint → Prop
  | .outer _ _ => True
  | .incre vars => ∃ eidResult eids, SplitReaches stream threshold curEid (.outer eidResult eids) ∧
      Scanning stream eids vars
  | .fill vars => ∃ eidResult eids, SplitReaches stream threshold curEid (.outer eidResult eids) ∧
      Filled stream threshold eids vars

theorem SplitReaches.started
    (loopless : ∀ eid ∈ curEid, stream.src.getD eid 0 ≠ stream.dst.getD eid 0)
    {point : SplitPoint} (run : SplitReaches stream threshold curEid point) :
    point.Started stream threshold curEid := by
  refine Reaches.invariant run trivial ?_
  intro before after reached started transition
  cases before with
  | outer eidResult eids =>
      obtain ⟨-, rfl⟩ := splitStep_outer transition
      exact ⟨eidResult, eids, reached, Scanning.start stream eidResult eids⟩
  | incre vars =>
      obtain ⟨eidResult, eids, outer, scanning⟩ := started
      have building : Building stream vars := SplitReaches.inv reached
      rcases splitStep_incre transition with ⟨eid, -, here, rfl⟩ | ⟨ended, rfl⟩
      · exact ⟨eidResult, eids, outer, scanning.increTurn building here⟩
      · exact ⟨eidResult, eids, outer, scanning.increEnd building
          (SplitReaches.tracked_of_loopless loopless reached) ended⟩
  | fill vars =>
      obtain ⟨eidResult, eids, outer, filled⟩ := started
      rcases splitStep_fill transition with ⟨eid, below, -, rfl⟩ | rfl
      · exact ⟨eidResult, eids, outer, filled.fillTurn below eid⟩
      · exact trivial

/-- With the spanning edges below the threshold the loop that takes edges with a new node
looks at all edges. -/
theorem Scanning.reaches
    (loopless : ∀ eid ∈ curEid, stream.src.getD eid 0 ≠ stream.dst.getD eid 0)
    {eids : List Nat} {vars : SplitVars} (few : calculateStaleness stream (spanning stream eids) < threshold)
    (scanning : Scanning stream eids vars)
    (run : SplitReaches stream threshold curEid (.incre vars)) :
    ∃ filling, SplitReaches stream threshold curEid (.fill filling) ∧
      Filled stream threshold eids filling ∧ filling.batchStaleness < threshold := by
  have building : Building stream vars := SplitReaches.inv run
  have tracked : vars.batchStaleness = calculateStaleness stream vars.admitted :=
    SplitReaches.tracked_of_loopless loopless run
  have below : vars.batchStaleness < threshold := by
    rw [tracked]
    refine lt_of_le_of_lt ?_ few
    rw [← scanning.ahead]
    exact calculateStaleness_le_append stream _ _
  rcases Nat.lt_or_ge vars.eidIdx vars.curEid.length with inside | ended
  · have here := List.getElem?_eq_getElem inside
    exact Scanning.reaches loopless few (scanning.increTurn building here)
      (Reaches.tail run (splitStep_increTurn below here))
  · have leave : splitStep stream threshold (.incre vars) = some (.fill vars.increEnd) := by
      rw [splitStep, if_pos below, List.getElem?_eq_none_iff.mpr ended]
    exact ⟨vars.increEnd, Reaches.tail run leave,
      scanning.increEnd building tracked fun _ => ended, below⟩
termination_by vars.curEid.length - vars.eidIdx
decreasing_by
  rw [SplitVars.increTurn_curEid, SplitVars.increTurn_eidIdx]
  omega

/-- A list that overshoots fills the batch up to one below the threshold with an edge
left. -/
theorem Filled.reaches {eids : List Nat} {vars : SplitVars} (exceeds : Overshoots stream threshold eids)
    (filled : Filled stream threshold eids vars) (below : vars.batchStaleness < threshold)
    (run : SplitReaches stream threshold curEid (.fill vars)) :
    ∃ filling, SplitReaches stream threshold curEid (.fill filling) ∧
      filling.batchStaleness = threshold - 1 ∧ filling.eidIdx < filling.curEid.length := by
  obtain ⟨few, many, odd⟩ := exceeds
  have staleness := filled.staleness below
  have count := filled.count below
  have all := spanning_staleness stream eids
  have inside : vars.eidIdx < vars.curEid.length := by omega
  by_cases near : vars.batchStaleness = threshold - 1
  · exact ⟨vars, run, near, inside⟩
  · have here := List.getElem?_eq_getElem inside
    have room : (vars.fillTurn vars.curEid[vars.eidIdx]).batchStaleness < threshold := by
      change vars.batchStaleness + 2 < threshold
      omega
    exact Filled.reaches ⟨few, many, odd⟩ (filled.fillTurn below _) room
      (Reaches.tail run (splitStep_fillTurn below here))
termination_by vars.curEid.length - vars.eidIdx
decreasing_by
  change vars.curEid.length - (vars.eidIdx + 1) < vars.curEid.length - vars.eidIdx
  omega

/-- A batch that starts with such a list comes to that point. -/
theorem Overshoots.exists_near
    (loopless : ∀ eid ∈ curEid, stream.src.getD eid 0 ≠ stream.dst.getD eid 0)
    {eids : List Nat} (exceeds : Overshoots stream threshold eids) {eidResult : List (List Nat)}
    (run : SplitReaches stream threshold curEid (.outer eidResult eids)) :
    ∃ filling, SplitReaches stream threshold curEid (.fill filling) ∧
      filling.batchStaleness = threshold - 1 ∧ filling.eidIdx < filling.curEid.length := by
  have nonempty : eids ≠ [] := by
    rintro rfl
    exact absurd (exceeds.1.trans exceeds.2.1) (lt_irrefl _)
  obtain ⟨vars, reached, filled, below⟩ := Scanning.reaches loopless exceeds.1
    (Scanning.start stream eidResult eids)
    (Reaches.tail run (splitStep_start stream threshold eidResult nonempty))
  exact filled.reaches exceeds below reached

/-- The batches of edges without self-loops are within the threshold or the staleness of
their first edges exactly when no batch starts with a list that overshoots. -/
theorem adaptiveSplit_bounded_iff (stream : EdgeStream) (threshold : Int) (curEid : List Nat)
    (loopless : ∀ eid ∈ curEid, stream.src.getD eid 0 ≠ stream.dst.getD eid 0) :
    (curEid = [] ∨ ∃ batches, adaptiveSplit stream threshold curEid = some batches ∧
        ∀ batch ∈ batches, BatchBounded stream threshold batch) ↔
      ∀ eidResult eids, SplitReaches stream threshold curEid (.outer eidResult eids) →
        ¬Overshoots stream threshold eids := by
  constructor
  · intro holds eidResult eids run exceeds
    rcases holds with rfl | ⟨batches, split, bounded⟩
    · have inside : eids ⊆ [] := run.left
      rw [List.subset_nil.mp inside] at exceeds
      exact absurd (exceeds.1.trans exceeds.2.1) (lt_irrefl _)
    · obtain ⟨filling, reached, near, left⟩ := exceeds.exists_near loopless run
      obtain ⟨batch, member, exceeds⟩ := exists_exceeding loopless reached near left split
      exact exceeds (bounded batch member)
  · intro never
    by_cases empty : curEid = []
    · exact .inl empty
    · obtain ⟨batches, split, -⟩ := adaptiveSplit_batched stream threshold empty
      refine .inr ⟨batches, split, adaptiveSplit_bounded loopless ?_ split⟩
      intro vars run near
      by_contra left
      obtain ⟨eidResult, eids, outer, filled⟩ := SplitReaches.started loopless run
      exact never eidResult eids outer (filled.overshoots near (Nat.lt_of_not_le left))

end Runs

/-! ## A batch above the threshold -/

/-- Edges from the first node to the second. -/
def parallelStream : EdgeStream where
  src := List.replicate 2001 0
  dst := List.replicate 2001 1
  time := List.replicate 2001 0
  eid := List.range 2001
  srcLength := length_sameTimes
  dstLength := by rw [List.length_replicate, List.length_range]
  timeLength := length_sameTimes
  eidRow := range_length

theorem parallelStream_ends {eid : Nat} (row : eid < 2001) :
    parallelStream.src.getD eid 0 = 0 ∧ parallelStream.dst.getD eid 0 = 1 := by
  constructor
  · exact (List.getD_eq_getElem?_getD ..).trans (by
      rw [parallelStream, List.getElem?_replicate_of_lt row, Option.getD_some])
  · exact (List.getD_eq_getElem?_getD ..).trans (by
      rw [parallelStream, List.getElem?_replicate_of_lt row, Option.getD_some])

theorem parallelStream_nodes {count : Nat} (some_ : 0 < count) (rows : count ≤ 2001) :
    batchNodes parallelStream (List.range count) = {0, 1} := by
  have src : (List.range count).map (fun eid => parallelStream.src.getD eid 0) =
      List.replicate count 0 := by
    rw [List.eq_replicate_iff, List.length_map, List.length_range]
    refine ⟨rfl, fun v member => ?_⟩
    obtain ⟨eid, inside, rfl⟩ := List.mem_map.mp member
    exact (parallelStream_ends (Nat.lt_of_lt_of_le (List.mem_range.mp inside) rows)).1
  have dst : (List.range count).map (fun eid => parallelStream.dst.getD eid 0) =
      List.replicate count 1 := by
    rw [List.eq_replicate_iff, List.length_map, List.length_range]
    refine ⟨rfl, fun v member => ?_⟩
    obtain ⟨eid, inside, rfl⟩ := List.mem_map.mp member
    exact (parallelStream_ends (Nat.lt_of_lt_of_le (List.mem_range.mp inside) rows)).2
  rw [batchNodes, src, dst, List.toFinset_replicate_of_ne_zero some_.ne',
    List.toFinset_replicate_of_ne_zero some_.ne']
  rfl

theorem parallelStream_loopless : ∀ eid ∈ List.range 2001,
    parallelStream.src.getD eid 0 ≠ parallelStream.dst.getD eid 0 := by
  intro eid member
  obtain ⟨src, dst⟩ := parallelStream_ends (List.mem_range.mp member)
  rw [src, dst]
  exact Nat.zero_ne_one

theorem parallelStream_staleness {count : Nat} (some_ : 0 < count) (rows : count ≤ 2001) :
    calculateStaleness parallelStream (List.range count) = 2 * count - 2 := by
  rw [calculateStaleness, parallelStream_nodes some_ rows, List.length_range]
  rfl

/-- The last edge has both its nodes in the first edges. -/
theorem parallelStream_spanning :
    spanning parallelStream (List.range 2001) = List.range 2000 := by
  have chunk : (List.range 2001).take 2000 = List.range 2000 := by rw [List.take_range]; rfl
  have left : (List.range 2001).drop 2000 = [2000] := by
    rw [List.range_succ, List.drop_left' List.length_range]
  obtain ⟨src, dst⟩ := parallelStream_ends (show 2000 < 2001 by omega)
  rw [spanning, chunk, left, parallelStream_nodes (by omega) (by omega), bringing, src, dst,
    if_pos (by decide), bringing, List.append_nil]

/-- The bound on more edges than a batch is started from. -/
theorem parallelStream_bounded_iff :
    (∀ eid ∈ List.range 2001,
        parallelStream.src.getD eid 0 ≠ parallelStream.dst.getD eid 0) ∧
      ((List.range 2001 = [] ∨
          ∃ batches, adaptiveSplit parallelStream 3999 (List.range 2001) = some batches ∧
            ∀ batch ∈ batches, BatchBounded parallelStream 3999 batch) ↔
        ∀ eidResult eids,
          SplitReaches parallelStream 3999 (List.range 2001) (.outer eidResult eids) →
            ¬Overshoots parallelStream 3999 eids) :=
  ⟨parallelStream_loopless,
    adaptiveSplit_bounded_iff parallelStream 3999 (List.range 2001) parallelStream_loopless⟩

/-- The first edges of `parallelStream` have a staleness of 3998, and the last edge brings
it to 4000. -/
theorem parallelStream_exceeds :
    (∀ eid ∈ List.range 2001,
        parallelStream.src.getD eid 0 ≠ parallelStream.dst.getD eid 0) ∧
      ∃ batches, adaptiveSplit parallelStream 3999 (List.range 2001) = some batches ∧
        ∃ batch ∈ batches, ¬BatchBounded parallelStream 3999 batch := by
  have exceeds : Overshoots parallelStream 3999 (List.range 2001) := by
    rw [Overshoots, parallelStream_spanning, parallelStream_staleness (by omega) (by omega),
      parallelStream_staleness (by omega) (by omega)]
    decide
  have nonempty : List.range 2001 ≠ [] := by simp
  obtain ⟨batches, split, -⟩ := adaptiveSplit_batched parallelStream 3999 nonempty
  obtain ⟨filling, reached, near, left⟩ :=
    exceeds.exists_near parallelStream_loopless (Reaches.refl _)
  exact ⟨parallelStream_loopless, batches, split,
    exists_exceeding parallelStream_loopless reached near left split⟩

end Dolphin.Eid
