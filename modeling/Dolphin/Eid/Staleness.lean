import Dolphin.Eid.SplitLoops
import Mathlib.Data.Finset.Card
import Mathlib.Data.Finset.Dedup
import Mathlib.Data.List.GetD

/-!
# The staleness of a batch

`calculate_staleness` counts how often the edges of a batch meet a node that an earlier
one has. The loops of the splitter keep the number in `batch_staleness` instead, edge by
edge, and compare it with the threshold before they take one more.
-/

namespace Dolphin.Eid

open Dolphin.Sampler Dolphin.Semantics

/-- `set(srcs) | set(dsts)`. -/
def batchNodes (stream : EdgeStream) (eids : List Nat) : Finset Nat :=
  (eids.map fun eid => stream.src.getD eid 0).toFinset ∪
    (eids.map fun eid => stream.dst.getD eid 0).toFinset

/-- `calculate_staleness`. -/
def calculateStaleness (stream : EdgeStream) (eids : List Nat) : Int :=
  2 * eids.length - (batchNodes stream eids).card

/-- An edge from a node to itself that the batch does not have. -/
def FreshLoop (stream : EdgeStream) (nodes : List Nat) (eid : Nat) : Prop :=
  stream.src.getD eid 0 = stream.dst.getD eid 0 ∧ stream.src.getD eid 0 ∉ nodes

instance (stream : EdgeStream) (nodes : List Nat) (eid : Nat) :
    Decidable (FreshLoop stream nodes eid) :=
  inferInstanceAs (Decidable (_ ∧ _))

/-- `nodes` is the set of the nodes of some edges. -/
structure HasNodes (stream : EdgeStream) (eids nodes : List Nat) : Prop where
  nodup : nodes.Nodup
  nodes_eq : nodes.toFinset = batchNodes stream eids

/-! ## One more edge -/

section Edge

variable {stream : EdgeStream} {eids nodes : List Nat}

theorem batchNodes_concat (stream : EdgeStream) (eids : List Nat) (eid : Nat) :
    batchNodes stream (eids ++ [eid]) =
      insert (stream.dst.getD eid 0) (insert (stream.src.getD eid 0) (batchNodes stream eids)) := by
  ext v
  simp only [batchNodes, List.map_append, List.map_cons, List.map_nil, List.toFinset_append,
    List.toFinset_cons, List.toFinset_nil, Finset.mem_union, Finset.mem_insert,
    Finset.notMem_empty, or_false]
  tauto

theorem HasNodes.nil (stream : EdgeStream) : HasNodes stream [] [] where
  nodup := List.nodup_nil
  nodes_eq := rfl

theorem HasNodes.mem_iff (known : HasNodes stream eids nodes) {v : Nat} :
    v ∈ nodes ↔ v ∈ batchNodes stream eids := by
  rw [← known.nodes_eq, List.mem_toFinset]

theorem HasNodes.card (known : HasNodes stream eids nodes) :
    (batchNodes stream eids).card = nodes.length := by
  rw [← known.nodes_eq, List.toFinset_card_of_nodup known.nodup]

theorem HasNodes.concat (known : HasNodes stream eids nodes) (eid : Nat) :
    HasNodes stream (eids ++ [eid]) (addNodes stream nodes eid) where
  nodup := (known.nodup.insert).insert
  nodes_eq := by
    ext v
    simp [addNodes, batchNodes_concat, known.mem_iff]

/-- The nodes that the first loop collects. -/
theorem HasNodes.foldl (known : HasNodes stream eids nodes) (more : List Nat) :
    HasNodes stream (eids ++ more) (more.foldl (addNodes stream) nodes) := by
  induction more generalizing eids nodes with
  | nil => simpa using known
  | cons eid more ih => simpa using ih (known.concat eid)

/-- With both nodes in the batch an edge changes the nodes no more. -/
theorem HasNodes.concat_known (known : HasNodes stream eids nodes) {eid : Nat}
    (src : stream.src.getD eid 0 ∈ nodes) (dst : stream.dst.getD eid 0 ∈ nodes) :
    HasNodes stream (eids ++ [eid]) nodes where
  nodup := known.nodup
  nodes_eq := by
    rw [batchNodes_concat, Finset.insert_eq_of_mem (known.mem_iff.mp src),
      Finset.insert_eq_of_mem (known.mem_iff.mp dst), known.nodes_eq]

/-- A delta of two means that the batch has both nodes. -/
theorem calculateDelta_eq_two {eid : Nat} : calculateDelta stream nodes eid = 2 ↔
    stream.src.getD eid 0 ∈ nodes ∧ stream.dst.getD eid 0 ∈ nodes := by
  unfold calculateDelta
  split <;> split <;> simp_all

/-- `calculate_delta` is what the edge adds to the staleness, except that it counts the
new node of a self-loop twice. -/
theorem calculateStaleness_concat (known : HasNodes stream eids nodes) (eid : Nat) :
    calculateStaleness stream (eids ++ [eid]) = calculateStaleness stream eids +
      calculateDelta stream nodes eid + if FreshLoop stream nodes eid then 1 else 0 := by
  have length : ((eids ++ [eid]).length : Int) = eids.length + 1 := by simp
  unfold calculateStaleness calculateDelta FreshLoop
  rw [batchNodes_concat, length]
  simp only [known.mem_iff]
  by_cases src : stream.src.getD eid 0 ∈ batchNodes stream eids
  · by_cases dst : stream.dst.getD eid 0 ∈ batchNodes stream eids
    · simp only [src, dst, Finset.insert_eq_of_mem, not_true_eq_false, and_false, if_true,
        if_false]
      omega
    · simp only [src, dst, Finset.insert_eq_of_mem, not_true_eq_false, and_false, if_true,
        if_false, Finset.card_insert_of_notMem, not_false_eq_true]
      omega
  · by_cases same : stream.src.getD eid 0 = stream.dst.getD eid 0
    · rw [same] at src ⊢
      simp only [src, Finset.insert_idem, Finset.card_insert_of_notMem, not_false_eq_true,
        and_self, if_true, if_false]
      omega
    · by_cases dst : stream.dst.getD eid 0 ∈ batchNodes stream eids
      · have inside := Finset.mem_insert_of_mem (b := stream.src.getD eid 0) dst
        simp only [src, dst, same, Finset.insert_eq_of_mem inside, Finset.card_insert_of_notMem,
          not_false_eq_true, and_true, if_true, if_false]
        omega
      · have outside : stream.dst.getD eid 0 ∉
            insert (stream.src.getD eid 0) (batchNodes stream eids) := by
          rw [Finset.mem_insert, not_or]
          exact ⟨fun equal => same equal.symm, dst⟩
        simp only [src, dst, same, Finset.card_insert_of_notMem outside,
          Finset.card_insert_of_notMem, not_false_eq_true, and_true, if_false]
        omega

end Edge

/-! ## The edges that are left -/

/-- What is left behind deletions stood at a position that was not deleted. -/
theorem getElem?_deletePicked {curEid : List Nat} {picked : List (Nat × Nat)} {i eid : Nat}
    (sorted : picked.Pairwise fun early late => early.2 < late.2)
    (kept : (deletePicked curEid picked)[i]? = some eid) :
    ∃ j, i ≤ j ∧ curEid[j]? = some eid ∧ j ∉ picked.map Prod.snd := by
  induction picked generalizing i with
  | nil => exact ⟨i, Nat.le_refl _, kept, List.not_mem_nil⟩
  | cons pick picked ih =>
      obtain ⟨later, sorted⟩ := List.pairwise_cons.mp sorted
      rw [deletePicked, List.foldr_cons] at kept
      rcases Nat.lt_or_ge i pick.2 with before | behind
      · -- everything up to the first deletion stays where it is
        have all : ∀ other ∈ pick :: picked, i < other.2 :=
          List.forall_mem_cons.mpr
            ⟨before, fun other member => Nat.lt_trans before (later other member)⟩
        rw [List.getElem?_eraseIdx_of_lt before] at kept
        refine ⟨i, Nat.le_refl _, ?_, fun member => ?_⟩
        · exact (deletePicked_getElem? fun other member =>
            all other (List.mem_cons_of_mem _ member)).symm.trans kept
        · obtain ⟨other, inside, same⟩ := List.mem_map.mp member
          exact Nat.ne_of_lt (all other inside) same.symm
      · rw [List.getElem?_eraseIdx_of_ge behind] at kept
        obtain ⟨j, le, here, fresh⟩ := ih sorted kept
        refine ⟨j, by omega, here, fun member => ?_⟩
        rcases List.mem_cons.mp member with same | member
        · omega
        · exact fresh member

/-- The edges behind deletions were there before. -/
theorem mem_of_mem_deletePicked {curEid : List Nat} {picked : List (Nat × Nat)} {eid : Nat}
    (kept : eid ∈ deletePicked curEid picked) : eid ∈ curEid := by
  induction picked with
  | nil => exact kept
  | cons pick picked ih => exact ih (List.mem_of_mem_eraseIdx kept)

/-! ## The points of a run -/

/-- What holds while a batch is built: `nodes` has the nodes of the batch, and the edges
that were skipped have both nodes in the batch. -/
structure Building (stream : EdgeStream) (vars : SplitVars) : Prop where
  hasNodes : HasNodes stream vars.admitted vars.nodes
  sorted : vars.incre.Pairwise fun early late => early.2 < late.2
  picked : ∀ pick ∈ vars.incre, pick.2 < vars.eidIdx
  skipped : ∀ i eid, i < vars.eidIdx → vars.curEid[i]? = some eid →
    i ∉ vars.incre.map Prod.snd → calculateDelta stream vars.nodes eid = 2

/-- What holds while a batch is filled up: as long as there is room, all edges that are
left have both nodes in the batch. -/
structure Filling (stream : EdgeStream) (threshold : Int) (vars : SplitVars) : Prop where
  incre : vars.incre = []
  hasNodes : HasNodes stream vars.admitted vars.nodes
  left : vars.batchStaleness < threshold →
    ∀ eid ∈ vars.curEid, calculateDelta stream vars.nodes eid = 2

/-- What holds at a point. -/
def SplitPoint.Inv (stream : EdgeStream) (threshold : Int) : SplitPoint → Prop
  | .outer _ _ => True
  | .incre vars => Building stream vars
  | .fill vars => Filling stream threshold vars

/-- `batch_staleness` is the staleness of the edges admitted so far. -/
def SplitPoint.Tracked (stream : EdgeStream) : SplitPoint → Prop
  | .outer _ _ => True
  | .incre vars => vars.batchStaleness = calculateStaleness stream vars.admitted
  | .fill vars => vars.batchStaleness = calculateStaleness stream vars.admitted

section Points

variable {stream : EdgeStream} {threshold : Int} {vars : SplitVars}

theorem SplitVars.start_hasNodes (stream : EdgeStream) (eidResult : List (List Nat))
    (curEid : List Nat) : HasNodes stream (SplitVars.start stream eidResult curEid).admitted
      (SplitVars.start stream eidResult curEid).nodes := by
  have known := (HasNodes.nil stream).foldl (curEid.take (min 2000 curEid.length))
  simpa [SplitVars.start, SplitVars.admitted] using known

theorem SplitVars.start_tracked (stream : EdgeStream) (eidResult : List (List Nat))
    (curEid : List Nat) :
    (SplitPoint.incre (SplitVars.start stream eidResult curEid)).Tracked stream := by
  have card := (SplitVars.start_hasNodes stream eidResult curEid).card
  rw [SplitPoint.Tracked, calculateStaleness, card, SplitVars.start_admitted, List.length_take]
  rfl

/-- A delta of two stays so when nodes are added. -/
theorem calculateDelta_addNodes {nodes : List Nat} {eid : Nat} (other : Nat)
    (known : calculateDelta stream nodes eid = 2) :
    calculateDelta stream (addNodes stream nodes other) eid = 2 := by
  obtain ⟨src, dst⟩ := calculateDelta_eq_two.mp known
  rw [calculateDelta_eq_two]
  unfold addNodes
  exact ⟨List.mem_insert_of_mem (List.mem_insert_of_mem src),
    List.mem_insert_of_mem (List.mem_insert_of_mem dst)⟩

/-- A turn of the loop that takes edges with a new node. -/
theorem Building.increTurn (building : Building stream vars) {eid : Nat}
    (here : vars.curEid[vars.eidIdx]? = some eid) : Building stream (vars.increTurn stream eid) := by
  by_cases known : calculateDelta stream vars.nodes eid = 2
  · rw [SplitVars.increTurn_known known]
    refine ⟨building.hasNodes, building.sorted,
      fun pick member => Nat.lt_succ_of_lt (building.picked pick member), ?_⟩
    intro i other below at_ fresh
    rcases Nat.lt_succ_iff_lt_or_eq.mp below with earlier | rfl
    · exact building.skipped i other earlier at_ fresh
    · obtain rfl : eid = other := Option.some.inj (here.symm.trans at_)
      exact known
  · rw [SplitVars.increTurn_new known]
    refine ⟨?_, ?_, ?_, ?_⟩
    · have grown := building.hasNodes.concat eid
      simpa [SplitVars.admitted] using grown
    · refine List.pairwise_append.mpr ⟨building.sorted, List.pairwise_singleton _ _, ?_⟩
      intro early member late own
      obtain rfl := List.mem_singleton.mp own
      exact building.picked early member
    · intro pick member
      rcases List.mem_append.mp member with earlier | own
      · exact Nat.lt_succ_of_lt (building.picked pick earlier)
      · obtain rfl := List.mem_singleton.mp own
        exact Nat.lt_succ_self _
    · intro i other below at_ fresh
      rw [List.map_append, List.mem_append, not_or] at fresh
      have notOwn : i ≠ vars.eidIdx := fun same => fresh.2 (by simp [same])
      exact calculateDelta_addNodes eid (building.skipped i other
        (by simp only at below; omega) at_ fresh.1)

/-- The loop ends at the threshold, or all edges have been looked at. -/
theorem Building.increEnd (building : Building stream vars)
    (ended : vars.batchStaleness < threshold → vars.curEid.length ≤ vars.eidIdx) :
    Filling stream threshold vars.increEnd where
  incre := rfl
  hasNodes := by
    rw [SplitVars.increEnd_admitted]
    exact building.hasNodes
  left := by
    intro below eid member
    obtain ⟨i, kept⟩ := List.getElem?_of_mem member
    obtain ⟨j, -, at_, fresh⟩ := getElem?_deletePicked building.sorted kept
    have inside := (List.getElem?_eq_some_iff.mp at_).1
    exact building.skipped j eid (Nat.lt_of_lt_of_le inside (ended below)) at_ fresh

/-- A turn of the loop that takes any edges. -/
theorem Filling.fillTurn (filling : Filling stream threshold vars) {eid : Nat}
    (below : vars.batchStaleness < threshold) (here : vars.curEid[vars.eidIdx]? = some eid) :
    Filling stream threshold (vars.fillTurn eid) := by
  have known := filling.left below
  obtain ⟨src, dst⟩ := calculateDelta_eq_two.mp (known eid (List.mem_of_getElem? here))
  refine ⟨filling.incre, ?_, fun _ => known⟩
  rw [SplitVars.fillTurn_admitted filling.incre]
  exact filling.hasNodes.concat_known src dst

/-- The points of a run. -/
theorem SplitReaches.inv {curEid : List Nat} {point : SplitPoint}
    (run : SplitReaches stream threshold curEid point) : point.Inv stream threshold := by
  refine Reaches.invariant run trivial ?_
  intro before after _ inv transition
  cases before with
  | outer eidResult eids =>
      obtain ⟨-, rfl⟩ := splitStep_outer transition
      exact ⟨SplitVars.start_hasNodes stream eidResult eids, List.Pairwise.nil,
        fun _ member => absurd member List.not_mem_nil,
        fun i _ below => absurd below (Nat.not_lt_zero i)⟩
  | incre vars =>
      rcases splitStep_incre transition with ⟨eid, -, here, rfl⟩ | ⟨ended, rfl⟩
      · exact Building.increTurn inv here
      · exact Building.increEnd inv ended
  | fill vars =>
      rcases splitStep_fill transition with ⟨eid, below, here, rfl⟩ | rfl
      · exact Filling.fillTurn inv below here
      · exact trivial

end Points

/-! ## The running number -/

section Tracking

variable {stream : EdgeStream} {threshold : Int} {vars : SplitVars}

/-- A turn with an edge adds what the edge adds, unless the edge is a self-loop of a new
node. -/
theorem Building.increTurn_tracked (building : Building stream vars)
    (tracked : (SplitPoint.incre vars).Tracked stream) (eid : Nat) :
    (SplitPoint.incre (vars.increTurn stream eid)).Tracked stream ↔
      ¬FreshLoop stream vars.nodes eid := by
  have value : vars.batchStaleness = calculateStaleness stream vars.admitted := tracked
  by_cases known : calculateDelta stream vars.nodes eid = 2
  · have notFresh : ¬FreshLoop stream vars.nodes eid := fun fresh =>
      fresh.2 (calculateDelta_eq_two.mp known).1
    rw [SplitVars.increTurn_known known]
    exact iff_of_true value notFresh
  · rw [SplitPoint.Tracked, SplitVars.increTurn_admitted known,
      SplitVars.increTurn_batchStaleness known, value,
      calculateStaleness_concat building.hasNodes]
    by_cases fresh : FreshLoop stream vars.nodes eid
    · rw [if_pos fresh]
      exact iff_of_false (by omega) (not_not_intro fresh)
    · rw [if_neg fresh]
      exact iff_of_true (by omega) fresh

/-- A turn with any edge adds two, and both nodes of the edge are in the batch. -/
theorem Filling.fillTurn_tracked (filling : Filling stream threshold vars) {eid : Nat}
    (tracked : (SplitPoint.fill vars).Tracked stream) (below : vars.batchStaleness < threshold)
    (here : vars.curEid[vars.eidIdx]? = some eid) :
    (SplitPoint.fill (vars.fillTurn eid)).Tracked stream := by
  have value : vars.batchStaleness = calculateStaleness stream vars.admitted := tracked
  have known := filling.left below eid (List.mem_of_getElem? here)
  have notFresh : ¬FreshLoop stream vars.nodes eid := fun fresh =>
    fresh.2 (calculateDelta_eq_two.mp known).1
  rw [SplitPoint.Tracked, SplitVars.fillTurn_admitted filling.incre,
    calculateStaleness_concat filling.hasNodes, known, if_neg notFresh, ← value]
  simp [SplitVars.fillTurn]

/-- No self-loop of a new node is admitted at a point. -/
def SplitPoint.NoFreshLoop (stream : EdgeStream) (threshold : Int) : SplitPoint → Prop
  | .incre vars => vars.batchStaleness < threshold →
      ∀ eid, vars.curEid[vars.eidIdx]? = some eid → ¬FreshLoop stream vars.nodes eid
  | .outer _ _ | .fill _ => True

/-- A step without a self-loop of a new node keeps the number. -/
theorem tracked_step {before after : SplitPoint} (inv : before.Inv stream threshold)
    (tracked : before.Tracked stream) (noFresh : before.NoFreshLoop stream threshold)
    (transition : splitStep stream threshold before = some after) : after.Tracked stream := by
  cases before with
  | outer eidResult eids =>
      obtain ⟨-, rfl⟩ := splitStep_outer transition
      exact SplitVars.start_tracked stream eidResult eids
  | incre vars =>
      rcases splitStep_incre transition with ⟨eid, below, here, rfl⟩ | ⟨-, rfl⟩
      · exact (Building.increTurn_tracked inv tracked eid).mpr (noFresh below eid here)
      · rw [SplitPoint.Tracked, SplitVars.increEnd_admitted]
        exact tracked
  | fill vars =>
      rcases splitStep_fill transition with ⟨eid, below, here, rfl⟩ | rfl
      · exact Filling.fillTurn_tracked inv tracked below here
      · exact trivial

/-- The number is right along a run without such steps. -/
theorem SplitReaches.tracked {curEid : List Nat} {point : SplitPoint}
    (noFresh : ∀ point, SplitReaches stream threshold curEid point →
      point.NoFreshLoop stream threshold)
    (run : SplitReaches stream threshold curEid point) : point.Tracked stream := by
  refine Reaches.invariant run trivial ?_
  intro before after reached tracked transition
  exact tracked_step (SplitReaches.inv reached) tracked (noFresh before reached) transition

/-- `batch_staleness` is the staleness of the admitted edges at every point of the loops
exactly when the loop that takes edges with a new node never stands at a self-loop whose
node the batch does not have. -/
theorem batchStaleness_tracked_iff (stream : EdgeStream) (threshold : Int) (curEid : List Nat) :
    (∀ point, SplitReaches stream threshold curEid point → point.Tracked stream) ↔
      ∀ point, SplitReaches stream threshold curEid point →
        point.NoFreshLoop stream threshold := by
  constructor
  · intro tracked point run
    cases point with
    | outer eidResult eids => exact trivial
    | fill vars => exact trivial
    | incre vars =>
        intro below eid here
        have next : SplitReaches stream threshold curEid (.incre (vars.increTurn stream eid)) :=
          Reaches.tail run (splitStep_increTurn below here)
        exact (Building.increTurn_tracked (SplitReaches.inv run) (tracked _ run) eid).mp
          (tracked _ next)
  · intro noFresh point run
    exact SplitReaches.tracked noFresh run

end Tracking

/-! ## A self-loop behind the first edges -/

theorem length_sameTimes : (List.replicate 2001 0).length = (List.range 2001).length := by
  rw [List.length_replicate, List.length_range]

theorem range_length : List.range 2001 = List.range (List.range 2001).length := by
  rw [List.length_range]

/-- Edges from the first node to itself, and behind them one from the second node to
itself. -/
def loopStream : EdgeStream where
  src := List.replicate 2000 0 ++ [1]
  dst := List.replicate 2000 0 ++ [1]
  time := List.replicate 2001 0
  eid := List.range 2001
  srcLength := by rw [List.length_append, List.length_replicate, List.length_range]; rfl
  dstLength := by rw [List.length_append, List.length_replicate, List.length_range]; rfl
  timeLength := length_sameTimes
  eidRow := range_length

theorem loopStream_first {eid : Nat} (first : eid < 2000) :
    loopStream.src.getD eid 0 = 0 ∧ loopStream.dst.getD eid 0 = 0 := by
  have value : (List.replicate 2000 0 ++ [1]).getD eid 0 = 0 := by
    rw [List.getD_append _ _ _ _ (by rwa [List.length_replicate]), List.getD_eq_getElem?_getD,
      List.getElem?_replicate_of_lt first, Option.getD_some]
  exact ⟨value, value⟩

theorem loopStream_last :
    loopStream.src.getD 2000 0 = 1 ∧ loopStream.dst.getD 2000 0 = 1 := by
  have value : (List.replicate 2000 0 ++ [1]).getD 2000 0 = 1 := by
    rw [List.getD_append_right _ _ _ _ (by rw [List.length_replicate]), List.length_replicate]
    rfl
  exact ⟨value, value⟩

/-- The last edge of `loopStream` is admitted with a delta of zero, although it adds one to
the staleness. -/
theorem loopStream_not_tracked :
    ¬∀ point, SplitReaches loopStream 5000 (List.range 2001) point → point.Tracked loopStream := by
  intro tracked
  have nonempty : List.range 2001 ≠ [] := by simp
  have run := Reaches.tail (Reaches.refl _) (splitStep_start loopStream 5000 [] nonempty)
  have known := SplitVars.start_hasNodes loopStream [] (List.range 2001)
  have building : Building loopStream (SplitVars.start loopStream [] (List.range 2001)) :=
    SplitReaches.inv run
  have count : min 2000 (List.range 2001).length = 2000 := by rw [List.length_range]; rfl
  generalize vars_eq : SplitVars.start loopStream [] (List.range 2001) = vars at *
  have admitted : vars.admitted = List.range 2000 := by
    rw [← vars_eq, SplitVars.start_admitted, List.take_range]
    rfl
  have below : vars.batchStaleness < 5000 := by
    have staleness : vars.batchStaleness = calculateStaleness loopStream vars.admitted :=
      tracked _ run
    rw [staleness, admitted, calculateStaleness, List.length_range]
    omega
  have here : vars.curEid[vars.eidIdx]? = some 2000 := by
    rw [← vars_eq]
    simp only [SplitVars.start, count, List.getElem?_drop]
    rw [List.getElem?_range (by omega)]
  have fresh : FreshLoop loopStream vars.nodes 2000 := by
    refine ⟨loopStream_last.1.trans loopStream_last.2.symm, ?_⟩
    rw [known.mem_iff, admitted, loopStream_last.1]
    intro member
    simp only [batchNodes, Finset.mem_union, List.mem_toFinset, List.mem_map,
      List.mem_range] at member
    rcases member with ⟨eid, first, one⟩ | ⟨eid, first, one⟩
    · rw [(loopStream_first first).1] at one
      cases one
    · rw [(loopStream_first first).2] at one
      cases one
  have next := Reaches.tail run (splitStep_increTurn below here)
  exact (building.increTurn_tracked (tracked _ run) 2000).mp (tracked _ next) fresh

end Dolphin.Eid
