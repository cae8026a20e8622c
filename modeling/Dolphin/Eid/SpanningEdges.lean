import Dolphin.Eid.Staleness

/-!
# The edges that bring the nodes of a list

Below the threshold the splitter takes the first edges of a list and every later one with
a node that no earlier edge has: the spanning edges of the list. They have all its nodes,
so each other edge adds two to their staleness. What the loop that takes any edges can
come to is thereby said of the list that is left when a batch starts.
-/

namespace Dolphin.Eid

open Dolphin.Sampler Dolphin.Semantics

/-- The edges with a node that is neither in `nodes` nor in an earlier edge. -/
def bringing (stream : EdgeStream) : Finset Nat → List Nat → List Nat
  | _, [] => []
  | nodes, eid :: eids =>
      if stream.src.getD eid 0 ∈ nodes ∧ stream.dst.getD eid 0 ∈ nodes then
        bringing stream nodes eids
      else
        eid :: bringing stream
          (insert (stream.dst.getD eid 0) (insert (stream.src.getD eid 0) nodes)) eids

/-- The first edges of a list, and every later one with a node that no earlier edge has. -/
def spanning (stream : EdgeStream) (eids : List Nat) : List Nat :=
  eids.take 2000 ++ bringing stream (batchNodes stream (eids.take 2000)) (eids.drop 2000)

/-- The threshold lies between the staleness of the spanning edges and that of all edges,
and steps of two pass over it. -/
def Overshoots (stream : EdgeStream) (threshold : Int) (eids : List Nat) : Prop :=
  calculateStaleness stream (spanning stream eids) < threshold ∧
    threshold < calculateStaleness stream eids ∧
    (calculateStaleness stream eids - threshold) % 2 = 1

instance (stream : EdgeStream) (threshold : Int) (eids : List Nat) :
    Decidable (Overshoots stream threshold eids) :=
  inferInstanceAs (Decidable (_ ∧ _ ∧ _))

section Lists

variable {stream : EdgeStream} {eids : List Nat}

/-! ## The nodes of the spanning edges -/

theorem batchNodes_append (stream : EdgeStream) (eids more : List Nat) :
    batchNodes stream (eids ++ more) = batchNodes stream eids ∪ batchNodes stream more := by
  ext v
  simp only [batchNodes, List.map_append, List.toFinset_append, Finset.mem_union]
  tauto

theorem batchNodes_cons (stream : EdgeStream) (eid : Nat) (eids : List Nat) :
    batchNodes stream (eid :: eids) =
      insert (stream.dst.getD eid 0) (insert (stream.src.getD eid 0) (batchNodes stream eids)) := by
  rw [← List.singleton_append, batchNodes_append, ← List.nil_append [eid], batchNodes_concat]
  simp only [Finset.insert_union]
  rfl

/-- The edges that are left out have no further node. -/
theorem bringing_nodes (stream : EdgeStream) (nodes : Finset Nat) (eids : List Nat) :
    nodes ∪ batchNodes stream (bringing stream nodes eids) = nodes ∪ batchNodes stream eids := by
  induction eids generalizing nodes with
  | nil => rfl
  | cons eid eids ih =>
      rw [bringing, batchNodes_cons]
      split
      case isTrue known =>
          rw [ih, Finset.union_insert, Finset.union_insert,
            Finset.insert_eq_of_mem (Finset.mem_union_left _ known.1),
            Finset.insert_eq_of_mem (Finset.mem_union_left _ known.2)]
      case isFalse =>
          have more := ih (insert (stream.dst.getD eid 0) (insert (stream.src.getD eid 0) nodes))
          rw [batchNodes_cons]
          simpa only [Finset.insert_union, Finset.union_insert] using more

theorem spanning_nodes (stream : EdgeStream) (eids : List Nat) :
    batchNodes stream (spanning stream eids) = batchNodes stream eids := by
  rw [spanning, batchNodes_append, bringing_nodes, ← batchNodes_append, List.take_append_drop]

/-- Each edge that is left out adds two. -/
theorem spanning_staleness (stream : EdgeStream) (eids : List Nat) :
    calculateStaleness stream eids = calculateStaleness stream (spanning stream eids) +
      2 * (eids.length - (spanning stream eids).length) := by
  rw [calculateStaleness, calculateStaleness, spanning_nodes]
  omega

/-- An edge adds nothing negative. -/
theorem calculateStaleness_le_concat (stream : EdgeStream) (eids : List Nat) (eid : Nat) :
    calculateStaleness stream eids ≤ calculateStaleness stream (eids ++ [eid]) := by
  have most := Finset.card_insert_le (stream.dst.getD eid 0)
    (insert (stream.src.getD eid 0) (batchNodes stream eids))
  have least := Finset.card_insert_le (stream.src.getD eid 0) (batchNodes stream eids)
  rw [calculateStaleness, calculateStaleness, batchNodes_concat, List.length_append,
    List.length_singleton]
  omega

theorem calculateStaleness_le_append (stream : EdgeStream) (eids more : List Nat) :
    calculateStaleness stream eids ≤ calculateStaleness stream (eids ++ more) := by
  induction more generalizing eids with
  | nil => rw [List.append_nil]
  | cons eid more ih =>
      rw [List.append_cons]
      exact (calculateStaleness_le_concat stream eids eid).trans (ih _)

end Lists

/-! ## The loops on the list a batch starts with -/

/-- While edges with a new node are taken: the edges of the list are taken, skipped or
ahead. -/
structure Scanning (stream : EdgeStream) (eids : List Nat) (vars : SplitVars) : Prop where
  chunk : vars.curBatchEid = eids.take 2000
  left : vars.curEid = eids.drop 2000
  within : vars.eidIdx ≤ vars.curEid.length
  ahead : vars.admitted ++ bringing stream (batchNodes stream vars.admitted)
    (vars.curEid.drop vars.eidIdx) = spanning stream eids

/-- While the batch has room, it has the spanning edges of the list and the others that
the last loop took. -/
structure Filled (stream : EdgeStream) (threshold : Int) (eids : List Nat)
    (vars : SplitVars) : Prop where
  staleness : vars.batchStaleness < threshold →
    vars.batchStaleness = calculateStaleness stream (spanning stream eids) + 2 * vars.eidIdx
  count : vars.batchStaleness < threshold →
    (spanning stream eids).length + vars.curEid.length = eids.length

section Steps

variable {stream : EdgeStream} {threshold : Int} {eids : List Nat} {vars : SplitVars}

theorem Scanning.start (stream : EdgeStream) (eidResult : List (List Nat)) (eids : List Nat) :
    Scanning stream eids (SplitVars.start stream eidResult eids) where
  chunk := by
    rw [← SplitVars.start_admitted stream eidResult eids]
    exact (SplitVars.admitted_of_incre rfl).symm
  left := by
    change eids.drop (min 2000 eids.length) = _
    rcases Nat.le_total 2000 eids.length with long | short
    · rw [Nat.min_eq_left long]
    · rw [Nat.min_eq_right short, List.drop_length, List.drop_eq_nil_of_le short]
  within := Nat.zero_le _
  ahead := by
    rw [SplitVars.start_admitted, spanning]
    congr 2
    change (eids.drop (min 2000 eids.length)).drop 0 = _
    rcases Nat.le_total 2000 eids.length with long | short
    · rw [Nat.min_eq_left long, List.drop_zero]
    · rw [Nat.min_eq_right short, List.drop_length, List.drop_eq_nil_of_le short, List.drop_nil]

/-- A turn of the loop that takes edges with a new node. -/
theorem Scanning.increTurn (scanning : Scanning stream eids vars)
    (building : Building stream vars) {eid : Nat} (here : vars.curEid[vars.eidIdx]? = some eid) :
    Scanning stream eids (vars.increTurn stream eid) := by
  obtain ⟨inside, own⟩ := List.getElem?_eq_some_iff.mp here
  have ahead := scanning.ahead
  rw [List.drop_eq_getElem_cons inside, own, bringing] at ahead
  by_cases known : calculateDelta stream vars.nodes eid = 2
  · have both := calculateDelta_eq_two.mp known
    rw [building.hasNodes.mem_iff, building.hasNodes.mem_iff] at both
    rw [if_pos both] at ahead
    rw [SplitVars.increTurn_known known]
    exact ⟨scanning.chunk, scanning.left, inside, ahead⟩
  · have new := mt calculateDelta_eq_two.mpr known
    rw [building.hasNodes.mem_iff, building.hasNodes.mem_iff] at new
    rw [if_neg new, ← batchNodes_concat, List.append_cons] at ahead
    refine ⟨?_, ?_, ?_, ?_⟩
    · rw [SplitVars.increTurn_new known]
      exact scanning.chunk
    · rw [SplitVars.increTurn_curEid]
      exact scanning.left
    · rw [SplitVars.increTurn_eidIdx, SplitVars.increTurn_curEid]
      exact inside
    · rw [SplitVars.increTurn_admitted known, SplitVars.increTurn_curEid,
        SplitVars.increTurn_eidIdx]
      exact ahead

/-- Deleting picked positions leaves the others. -/
theorem deletePicked_length {curEid : List Nat} {picked : List (Nat × Nat)}
    (sorted : picked.Pairwise fun early late => early.2 < late.2)
    (inside : ∀ pick ∈ picked, pick.2 < curEid.length) :
    picked.length + (deletePicked curEid picked).length = curEid.length := by
  induction picked with
  | nil => exact Nat.zero_add _
  | cons pick picked ih =>
      obtain ⟨here, rest⟩ := List.forall_mem_cons.mp inside
      obtain ⟨later, sorted⟩ := List.pairwise_cons.mp sorted
      have count := ih sorted rest
      -- later positions are deleted first, so this one is still there
      have still : pick.2 < (deletePicked curEid picked).length := by
        have same : (deletePicked curEid picked)[pick.2]? = curEid[pick.2]? :=
          deletePicked_getElem? later
        rw [List.getElem?_eq_getElem here] at same
        exact (List.getElem?_eq_some_iff.mp same).1
      change (picked.length + 1) + ((deletePicked curEid picked).eraseIdx pick.2).length = _
      rw [List.length_eraseIdx_of_lt still]
      omega

/-- With room the loop has come to the end of the list, and has the spanning edges. -/
theorem Scanning.admitted_of_ended (scanning : Scanning stream eids vars)
    (ended : vars.curEid.length ≤ vars.eidIdx) : vars.admitted = spanning stream eids := by
  have ahead := scanning.ahead
  rwa [List.drop_eq_nil_of_le ended, bringing, List.append_nil] at ahead

/-- The end of that loop. -/
theorem Scanning.increEnd (scanning : Scanning stream eids vars)
    (building : Building stream vars)
    (tracked : vars.batchStaleness = calculateStaleness stream vars.admitted)
    (ended : vars.batchStaleness < threshold → vars.curEid.length ≤ vars.eidIdx) :
    Filled stream threshold eids vars.increEnd where
  staleness below := by
    have admitted := scanning.admitted_of_ended (ended below)
    change vars.batchStaleness = _ + 2 * ((0 : Nat) : Int)
    rw [tracked, admitted]
    omega
  count below := by
    have admitted := congrArg List.length (scanning.admitted_of_ended (ended below))
    have kept := deletePicked_length building.sorted fun pick member =>
      Nat.lt_of_lt_of_le (building.picked pick member) scanning.within
    have all := congrArg List.length (List.take_append_drop 2000 eids)
    rw [SplitVars.admitted, scanning.chunk, List.length_append, List.length_map] at admitted
    rw [← scanning.left, List.length_append] at all
    change _ + (deletePicked vars.curEid vars.incre).length = _
    omega

/-- A turn of the loop that takes any edges. -/
theorem Filled.fillTurn (filled : Filled stream threshold eids vars)
    (below : vars.batchStaleness < threshold) (eid : Nat) :
    Filled stream threshold eids (vars.fillTurn eid) where
  staleness _ := by
    have staleness := filled.staleness below
    change vars.batchStaleness + 2 = _ + 2 * ((vars.eidIdx + 1 : Nat) : Int)
    omega
  count _ := filled.count below

/-- One below the threshold with an edge left means that the list overshoots. -/
theorem Filled.overshoots (filled : Filled stream threshold eids vars)
    (near : vars.batchStaleness = threshold - 1) (left : vars.eidIdx < vars.curEid.length) :
    Overshoots stream threshold eids := by
  have below : vars.batchStaleness < threshold := by omega
  have staleness := filled.staleness below
  have count := filled.count below
  have all := spanning_staleness stream eids
  refine ⟨?_, ?_, ?_⟩ <;> omega

end Steps

end Dolphin.Eid
