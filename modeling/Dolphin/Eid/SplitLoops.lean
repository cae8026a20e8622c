import Dolphin.Eid.AdaptiveSplit
import Dolphin.Semantics.Runs

/-!
# The loops of the splitter

`adaptive_split_in_large_batch` point by point: the heads of its outer loop, of the loop
that takes edges with a new node and of the loop that takes any edges, each with the
variables it has there. The run ends at the outer loop with no edge left, and the
batches it has then are those of `adaptiveLoop`.
-/

namespace Dolphin.Eid

open Dolphin.Sampler Dolphin.Semantics

/-- The variables while a batch is built. `incre` has `incre_eid` with
`incre_eid_idx`. -/
structure SplitVars where
  eidResult : List (List Nat)
  curEid : List Nat
  curBatchEid : List Nat
  nodes : List Nat
  batchStaleness : Int
  eidIdx : Nat
  incre : List (Nat × Nat)

namespace SplitVars

variable (stream : EdgeStream) (vars : SplitVars)

/-- The edges admitted to the batch so far. -/
def admitted : List Nat := vars.curBatchEid ++ vars.incre.map Prod.fst

/-- The first edges are taken, `batch_staleness` is computed. -/
def start (eidResult : List (List Nat)) (curEid : List Nat) : SplitVars :=
  let initialCount := min 2000 curEid.length
  let initialEids := curEid.take initialCount
  let nodes := initialEids.foldl (addNodes stream) []
  { eidResult := eidResult
    curEid := curEid.drop initialCount
    curBatchEid := initialEids
    nodes := nodes
    batchStaleness := 2 * initialCount - nodes.length
    eidIdx := 0
    incre := [] }

/-- The body of the loop that takes edges with a new node. -/
def increTurn (eid : Nat) : SplitVars :=
  let staleness := calculateDelta stream vars.nodes eid
  if staleness = 2 then { vars with eidIdx := vars.eidIdx + 1 }
  else
    { vars with
      nodes := addNodes stream vars.nodes eid
      batchStaleness := vars.batchStaleness + staleness
      eidIdx := vars.eidIdx + 1
      incre := vars.incre ++ [(eid, vars.eidIdx)] }

/-- Behind that loop its edges go to the batch and are deleted. -/
def increEnd : SplitVars :=
  { vars with
    curBatchEid := vars.admitted
    curEid := deletePicked vars.curEid vars.incre
    eidIdx := 0
    incre := [] }

/-- The body of the loop that takes any edges. -/
def fillTurn (eid : Nat) : SplitVars :=
  { vars with
    batchStaleness := vars.batchStaleness + 2
    curBatchEid := vars.curBatchEid ++ [eid]
    eidIdx := vars.eidIdx + 1 }

variable {stream vars} {eid : Nat}

theorem start_admitted (stream : EdgeStream) (eidResult : List (List Nat)) (curEid : List Nat) :
    (start stream eidResult curEid).admitted = curEid.take 2000 := by
  rw [← List.take_length (l := curEid), List.take_take]
  simp [start, admitted]

@[simp] theorem increTurn_curEid (eid : Nat) :
    (vars.increTurn stream eid).curEid = vars.curEid := by
  unfold increTurn
  dsimp only
  split <;> rfl

@[simp] theorem increTurn_eidResult (eid : Nat) :
    (vars.increTurn stream eid).eidResult = vars.eidResult := by
  unfold increTurn
  dsimp only
  split <;> rfl

@[simp] theorem increTurn_eidIdx (eid : Nat) :
    (vars.increTurn stream eid).eidIdx = vars.eidIdx + 1 := by
  unfold increTurn
  dsimp only
  split <;> rfl

/-- A skipped edge leaves the batch as it is. -/
theorem increTurn_known (known : calculateDelta stream vars.nodes eid = 2) :
    vars.increTurn stream eid = { vars with eidIdx := vars.eidIdx + 1 } := if_pos known

/-- An edge with a new node is admitted. -/
theorem increTurn_new (new : calculateDelta stream vars.nodes eid ≠ 2) :
    vars.increTurn stream eid =
      { vars with
        nodes := addNodes stream vars.nodes eid
        batchStaleness := vars.batchStaleness + calculateDelta stream vars.nodes eid
        eidIdx := vars.eidIdx + 1
        incre := vars.incre ++ [(eid, vars.eidIdx)] } := if_neg new

theorem increTurn_admitted (new : calculateDelta stream vars.nodes eid ≠ 2) :
    (vars.increTurn stream eid).admitted = vars.admitted ++ [eid] := by
  rw [increTurn_new new]
  simp [admitted]

theorem increTurn_batchStaleness (new : calculateDelta stream vars.nodes eid ≠ 2) :
    (vars.increTurn stream eid).batchStaleness =
      vars.batchStaleness + calculateDelta stream vars.nodes eid := by
  rw [increTurn_new new]

@[simp] theorem increEnd_admitted : vars.increEnd.admitted = vars.admitted := by
  rw [admitted, increEnd, List.map_nil, List.append_nil]

theorem admitted_of_incre (none : vars.incre = []) : vars.admitted = vars.curBatchEid := by
  rw [admitted, none, List.map_nil, List.append_nil]

theorem fillTurn_admitted (none : vars.incre = []) (eid : Nat) :
    (vars.fillTurn eid).admitted = vars.admitted ++ [eid] := by
  rw [admitted_of_incre none]
  exact admitted_of_incre none

end SplitVars

/-- The heads of the three loops. -/
inductive SplitPoint where
  | outer (eidResult : List (List Nat)) (curEid : List Nat)
  | incre (vars : SplitVars)
  | fill (vars : SplitVars)

/-- From one head to the next. -/
def splitStep (stream : EdgeStream) (threshold : Int) : SplitPoint → Option SplitPoint
  | .outer _ [] => none
  | .outer eidResult (eid :: eids) => some (.incre (.start stream eidResult (eid :: eids)))
  | .incre vars =>
      if vars.batchStaleness < threshold then
        match vars.curEid[vars.eidIdx]? with
        | some eid => some (.incre (vars.increTurn stream eid))
        | none => some (.fill vars.increEnd)
      else some (.fill vars.increEnd)
  | .fill vars =>
      if vars.batchStaleness < threshold then
        match vars.curEid[vars.eidIdx]? with
        | some eid => some (.fill (vars.fillTurn eid))
        | none => some (.outer (vars.eidResult ++ [vars.curBatchEid]) (vars.curEid.drop vars.eidIdx))
      else some (.outer (vars.eidResult ++ [vars.curBatchEid]) (vars.curEid.drop vars.eidIdx))

/-- The points of a run on some edges. -/
def SplitReaches (stream : EdgeStream) (threshold : Int) (curEid : List Nat)
    (point : SplitPoint) : Prop :=
  Reaches (splitStep stream threshold) (.outer [] curEid) point

/-! ## What a step can do -/

section Steps

variable {stream : EdgeStream} {threshold : Int} {vars : SplitVars} {next : SplitPoint}

/-- A step of the loop that takes edges with a new node. -/
theorem splitStep_incre (transition : splitStep stream threshold (.incre vars) = some next) :
    (∃ eid, vars.batchStaleness < threshold ∧ vars.curEid[vars.eidIdx]? = some eid ∧
      next = .incre (vars.increTurn stream eid)) ∨
    ((vars.batchStaleness < threshold → vars.curEid.length ≤ vars.eidIdx) ∧
      next = .fill vars.increEnd) := by
  rw [splitStep] at transition
  split at transition
  case isTrue below =>
      split at transition
      case h_1 eid here => exact .inl ⟨eid, below, here, (Option.some.inj transition).symm⟩
      case h_2 behind =>
          exact .inr ⟨fun _ => List.getElem?_eq_none_iff.mp behind,
            (Option.some.inj transition).symm⟩
  case isFalse full =>
      exact .inr ⟨fun below => absurd below full, (Option.some.inj transition).symm⟩

/-- A step of the loop that takes any edges. -/
theorem splitStep_fill (transition : splitStep stream threshold (.fill vars) = some next) :
    (∃ eid, vars.batchStaleness < threshold ∧ vars.curEid[vars.eidIdx]? = some eid ∧
      next = .fill (vars.fillTurn eid)) ∨
    next = .outer (vars.eidResult ++ [vars.curBatchEid]) (vars.curEid.drop vars.eidIdx) := by
  rw [splitStep] at transition
  split at transition
  case isTrue below =>
      split at transition
      case h_1 eid here => exact .inl ⟨eid, below, here, (Option.some.inj transition).symm⟩
      case h_2 => exact .inr (Option.some.inj transition).symm
  case isFalse => exact .inr (Option.some.inj transition).symm

/-- A step of the outer loop. -/
theorem splitStep_outer {eidResult : List (List Nat)} {curEid : List Nat}
    (transition : splitStep stream threshold (.outer eidResult curEid) = some next) :
    curEid ≠ [] ∧ next = .incre (.start stream eidResult curEid) := by
  cases curEid with
  | nil => cases transition
  | cons eid eids => exact ⟨List.cons_ne_nil _ _, (Option.some.inj transition).symm⟩

/-- With room and an edge left the first inner loop makes a turn. -/
theorem splitStep_increTurn {eid : Nat} (below : vars.batchStaleness < threshold)
    (here : vars.curEid[vars.eidIdx]? = some eid) :
    splitStep stream threshold (.incre vars) = some (.incre (vars.increTurn stream eid)) := by
  rw [splitStep, if_pos below, here]

/-- So does the second one. -/
theorem splitStep_fillTurn {eid : Nat} (below : vars.batchStaleness < threshold)
    (here : vars.curEid[vars.eidIdx]? = some eid) :
    splitStep stream threshold (.fill vars) = some (.fill (vars.fillTurn eid)) := by
  rw [splitStep, if_pos below, here]

/-- With an edge left the outer loop starts a batch. -/
theorem splitStep_start (stream : EdgeStream) (threshold : Int) (eidResult : List (List Nat))
    {curEid : List Nat} (nonempty : curEid ≠ []) :
    splitStep stream threshold (.outer eidResult curEid) =
      some (.incre (.start stream eidResult curEid)) := by
  cases curEid with
  | nil => exact absurd rfl nonempty
  | cons eid eids => rfl

end Steps

/-! ## The run computes the batches -/

section Runs

variable (stream : EdgeStream) (threshold : Int)

/-- From the head of the first inner loop to its end. -/
theorem incre_reaches (vars : SplitVars) :
    let incre := pickIncre stream threshold (vars.curEid.drop vars.eidIdx) vars.eidIdx vars.nodes
      vars.batchStaleness
    ∃ nodes, Reaches (splitStep stream threshold) (.incre vars)
      (.fill { vars with
        curEid := deletePicked vars.curEid (vars.incre ++ incre.1)
        curBatchEid := vars.admitted ++ incre.1.map Prod.fst
        nodes := nodes
        batchStaleness := incre.2
        eidIdx := 0
        incre := [] }) := by
  generalize suffix : vars.curEid.drop vars.eidIdx = eids
  induction eids generalizing vars with
  | nil =>
      have behind := List.drop_eq_nil_iff.mp suffix
      have transition : splitStep stream threshold (.incre vars) = some (.fill vars.increEnd) := by
        rw [splitStep, List.getElem?_eq_none_iff.mpr behind]
        split <;> rfl
      refine ⟨vars.nodes, Reaches.head transition ?_⟩
      simp only [pickIncre, List.append_nil, List.map_nil]
      exact Reaches.refl _
  | cons eid eids ih =>
      obtain ⟨here, rest⟩ := drop_eq_cons suffix
      rw [pickIncre]
      split
      case isFalse full =>
          have transition : splitStep stream threshold (.incre vars) =
              some (.fill vars.increEnd) := by
            rw [splitStep, if_neg full]
          refine ⟨vars.nodes, Reaches.head transition ?_⟩
          simp only [List.append_nil, List.map_nil]
          exact Reaches.refl _
      case isTrue below =>
          have left : (vars.increTurn stream eid).curEid.drop
              (vars.increTurn stream eid).eidIdx = eids := by
            rw [SplitVars.increTurn_curEid, SplitVars.increTurn_eidIdx, rest]
          obtain ⟨nodes, run⟩ := ih (vars.increTurn stream eid) left
          refine ⟨nodes, Reaches.head (splitStep_increTurn below here) ?_⟩
          simp only [SplitVars.increTurn] at run ⊢
          split
          case isTrue known => simpa only [if_pos known, SplitVars.admitted] using run
          case isFalse new =>
              simpa only [if_neg new, SplitVars.admitted, List.map_append, List.append_assoc,
                List.map_cons, List.map_nil, List.cons_append, List.nil_append] using run

/-- From the head of the second inner loop to the outer one. -/
theorem fill_reaches (vars : SplitVars) :
    let left := vars.curEid.drop vars.eidIdx
    let count := fillCount threshold left vars.batchStaleness
    Reaches (splitStep stream threshold) (.fill vars)
      (.outer (vars.eidResult ++ [vars.curBatchEid ++ left.take count]) (left.drop count)) := by
  generalize suffix : vars.curEid.drop vars.eidIdx = eids
  induction eids generalizing vars with
  | nil =>
      have behind := List.drop_eq_nil_iff.mp suffix
      refine Reaches.tail (Reaches.refl _) ?_
      rw [splitStep, List.getElem?_eq_none_iff.mpr behind, suffix]
      split <;> simp
  | cons eid eids ih =>
      obtain ⟨here, rest⟩ := drop_eq_cons suffix
      by_cases below : vars.batchStaleness < threshold
      case neg =>
          refine Reaches.tail (Reaches.refl _) ?_
          rw [splitStep, if_neg below, suffix]
          simp [fillCount, below]
      case pos =>
          have run := ih (vars.fillTurn eid) rest
          refine Reaches.head (splitStep_fillTurn below here) ?_
          simpa only [SplitVars.fillTurn, fillCount, if_pos below, List.take_succ_cons,
            List.drop_succ_cons, List.append_assoc, List.cons_append, List.nil_append] using run

/-- A turn of the outer loop. -/
theorem nextBatch_reaches (eidResult : List (List Nat)) (eid : Nat) (eids : List Nat) :
    let turn := nextBatch stream threshold (eid :: eids)
    Reaches (splitStep stream threshold) (.outer eidResult (eid :: eids))
      (.outer (eidResult ++ [turn.1]) turn.2) := by
  obtain ⟨nodes, picked⟩ := incre_reaches stream threshold (.start stream eidResult (eid :: eids))
  have filled := fill_reaches stream threshold
  refine Reaches.head rfl (picked.trans ((filled _).trans ?_))
  simp only [SplitVars.start, SplitVars.admitted, List.map_nil, List.append_nil, List.nil_append,
    List.drop_zero, nextBatch]
  exact Reaches.refl _

/-- The run ends with the batches of `adaptiveLoop`. -/
theorem adaptiveLoop_reaches {fuel : Nat} {curEid : List Nat} {batches : List (List Nat)}
    (eidResult : List (List Nat)) (loop : adaptiveLoop stream threshold fuel curEid = some batches) :
    Reaches (splitStep stream threshold) (.outer eidResult curEid)
      (.outer (eidResult ++ batches) []) := by
  induction fuel generalizing curEid batches eidResult with
  | zero =>
      cases curEid with
      | nil =>
          obtain rfl : [] = batches := Option.some.inj loop
          simpa using Reaches.refl _
      | cons eid eids => cases loop
  | succ fuel ih =>
      cases curEid with
      | nil =>
          obtain rfl : [] = batches := Option.some.inj loop
          simpa using Reaches.refl _
      | cons eid eids =>
          obtain ⟨rest, later, same⟩ := Option.bind_eq_some_iff.mp loop
          obtain rfl := Option.some.inj same
          have turn := nextBatch_reaches stream threshold eidResult eid eids
          simpa using turn.trans (ih _ later)

/-- What the splitter returns is what its run ends with. -/
theorem adaptiveSplit_reaches {curEid : List Nat} {batches : List (List Nat)}
    (split : adaptiveSplit stream threshold curEid = some batches) :
    SplitReaches stream threshold curEid (.outer batches []) := by
  obtain ⟨eidResult, loop, read⟩ := Option.bind_eq_some_iff.mp split
  obtain ⟨_, -, same⟩ := Option.bind_eq_some_iff.mp read
  obtain rfl := Option.some.inj same
  exact adaptiveLoop_reaches stream threshold [] loop

end Runs

end Dolphin.Eid
