import Dolphin.Eid.Cuts
import Mathlib.Data.List.Perm.Basic

/-!
# Batches of low staleness

`adaptive_split_in_large_batch` takes the next edges of a block for a batch and adds
later edges while the staleness of the batch is below the threshold, first those that
bring a new node, then any. A batch begins with the first edge that is left, and the
batches together have the edges of the block.
-/

namespace Dolphin.Eid

open Dolphin.Sampler
open scoped List

/-- `nodes` with the two nodes of an edge. -/
def addNodes (stream : EdgeStream) (nodes : List Nat) (eid : Nat) : List Nat :=
  (nodes.insert (stream.src.getD eid 0)).insert (stream.dst.getD eid 0)

/-- `calculate_delta`. -/
def calculateDelta (stream : EdgeStream) (nodes : List Nat) (eid : Nat) : Int :=
  let srcNew : Int := if stream.src.getD eid 0 ∈ nodes then 0 else 1
  let dstNew : Int := if stream.dst.getD eid 0 ∈ nodes then 0 else 1
  2 - (srcNew + dstNew)

/-- The loop over the edges that are left, from `eid_idx` on: `incre_eid` with
`incre_eid_idx`, and `batch_staleness`. -/
def pickIncre (stream : EdgeStream) (threshold : Int) :
    List Nat → Nat → List Nat → Int → List (Nat × Nat) × Int
  | [], _, _, staleness => ([], staleness)
  | eid :: eids, eidIdx, nodes, staleness =>
      if staleness < threshold then
        let delta := calculateDelta stream nodes eid
        if delta = 2 then pickIncre stream threshold eids (eidIdx + 1) nodes staleness
        else
          let rest := pickIncre stream threshold eids (eidIdx + 1) (addNodes stream nodes eid)
            (staleness + delta)
          ((eid, eidIdx) :: rest.1, rest.2)
      else ([], staleness)

/-- `del cur_eid[i]` for the picked positions, the last one first. -/
def deletePicked (curEid : List Nat) (picked : List (Nat × Nat)) : List Nat :=
  picked.foldr (fun pick eids => eids.eraseIdx pick.2) curEid

/-- `eid_idx` behind the loop that takes any edges. -/
def fillCount (threshold : Int) : List Nat → Int → Nat
  | [], _ => 0
  | _ :: eids, staleness =>
      if staleness < threshold then fillCount threshold eids (staleness + 2) + 1 else 0

/-- One turn of the outer loop: `cur_batch_eid`, and `cur_eid` without it. -/
def nextBatch (stream : EdgeStream) (threshold : Int) (curEid : List Nat) :
    List Nat × List Nat :=
  let initialCount := min 2000 curEid.length
  let initialEids := curEid.take initialCount
  let nodes := initialEids.foldl (addNodes stream) []
  let left := curEid.drop initialCount
  let incre := pickIncre stream threshold left 0 nodes (2 * initialCount - nodes.length)
  let kept := deletePicked left incre.1
  let count := fillCount threshold kept incre.2
  (initialEids ++ incre.1.map Prod.fst ++ kept.take count, kept.drop count)

/-- The outer loop. -/
def adaptiveLoop (stream : EdgeStream) (threshold : Int) :
    Nat → List Nat → Option (List (List Nat))
  | _, [] => some []
  | 0, _ :: _ => none
  | fuel + 1, eid :: eids => do
      let turn := nextBatch stream threshold (eid :: eids)
      let batches ← adaptiveLoop stream threshold fuel turn.2
      some (turn.1 :: batches)

/-- `adaptive_split_in_large_batch`; it reads `eid_result[-1]` before it returns. -/
def adaptiveSplit (stream : EdgeStream) (threshold : Int) (curEid : List Nat) :
    Option (List (List Nat)) := do
  let eidResult ← adaptiveLoop stream threshold curEid.length curEid
  let _ ← eidResult.getLast?
  some eidResult

/-! ## The edges of a batch -/

/-- What is picked is where its index says, and the indices increase. -/
theorem pickIncre_spec (stream : EdgeStream) (threshold : Int) (curEid : List Nat)
    (eidIdx : Nat) (nodes : List Nat) (staleness : Int) :
    let picked := (pickIncre stream threshold (curEid.drop eidIdx) eidIdx nodes staleness).1
    (∀ pick ∈ picked, eidIdx ≤ pick.2 ∧ curEid[pick.2]? = some pick.1) ∧
      picked.Pairwise fun early late => early.2 < late.2 := by
  generalize suffix : curEid.drop eidIdx = eids
  induction eids generalizing eidIdx nodes staleness with
  | nil => simp [pickIncre]
  | cons eid eids ih =>
      obtain ⟨here, rest⟩ := drop_eq_cons suffix
      rw [pickIncre]
      split
      case isFalse => simp
      case isTrue =>
          simp only
          split
          case isTrue =>
              obtain ⟨placed, sorted⟩ := ih (eidIdx + 1) nodes staleness rest
              exact ⟨fun pick member =>
                ⟨Nat.le_of_succ_le (placed pick member).1, (placed pick member).2⟩, sorted⟩
          case isFalse =>
              obtain ⟨placed, sorted⟩ := ih (eidIdx + 1) (addNodes stream nodes eid)
                (staleness + calculateDelta stream nodes eid) rest
              refine ⟨?_, List.pairwise_cons.mpr ⟨fun pick member => (placed pick member).1,
                sorted⟩⟩
              intro pick member
              rcases List.mem_cons.mp member with rfl | member
              · exact ⟨Nat.le_refl _, here⟩
              · exact ⟨Nat.le_of_succ_le (placed pick member).1, (placed pick member).2⟩

/-- Deleting later positions leaves an earlier one as it is. -/
theorem deletePicked_getElem? {curEid : List Nat} {picked : List (Nat × Nat)} {i : Nat}
    (later : ∀ pick ∈ picked, i < pick.2) : (deletePicked curEid picked)[i]? = curEid[i]? := by
  induction picked with
  | nil => rfl
  | cons pick picked ih =>
      obtain ⟨here, rest⟩ := List.forall_mem_cons.mp later
      rw [deletePicked, List.foldr_cons, List.getElem?_eraseIdx_of_lt here]
      exact ih rest

/-- What is picked and what is not are the edges that were left. -/
theorem deletePicked_perm {curEid : List Nat} {picked : List (Nat × Nat)}
    (placed : ∀ pick ∈ picked, curEid[pick.2]? = some pick.1)
    (sorted : picked.Pairwise fun early late => early.2 < late.2) :
    (picked.map Prod.fst ++ deletePicked curEid picked).Perm curEid := by
  induction picked with
  | nil => exact List.Perm.refl _
  | cons pick picked ih =>
      obtain ⟨here, rest⟩ := List.forall_mem_cons.mp placed
      obtain ⟨later, sorted⟩ := List.pairwise_cons.mp sorted
      have kept : (deletePicked curEid picked)[pick.2]? = some pick.1 := by
        rw [deletePicked_getElem? later, here]
      obtain ⟨bound, own⟩ := List.getElem?_eq_some_iff.mp kept
      have back : (pick.1 :: (deletePicked curEid picked).eraseIdx pick.2).Perm
          (deletePicked curEid picked) := by
        rw [← own]
        exact List.getElem_cons_eraseIdx_perm bound
      calc (pick :: picked).map Prod.fst ++ deletePicked curEid (pick :: picked)
          = pick.1 :: (picked.map Prod.fst ++ (deletePicked curEid picked).eraseIdx pick.2) := rfl
        _ ~ picked.map Prod.fst ++ pick.1 :: (deletePicked curEid picked).eraseIdx pick.2 :=
          List.perm_middle.symm
        _ ~ picked.map Prod.fst ++ deletePicked curEid picked := back.append_left _
        _ ~ curEid := ih rest sorted

/-- A batch and what is left behind it are the edges that were left before it. -/
theorem nextBatch_perm (stream : EdgeStream) (threshold : Int) (curEid : List Nat) :
    (nextBatch stream threshold curEid).1 ++ (nextBatch stream threshold curEid).2 ~ curEid := by
  simp only [nextBatch]
  generalize min 2000 curEid.length = count
  generalize (curEid.take count).foldl (addNodes stream) [] = nodes
  generalize 2 * (count : Int) - nodes.length = staleness
  obtain ⟨placed, sorted⟩ := pickIncre_spec stream threshold (curEid.drop count) 0 nodes staleness
  rw [List.drop_zero] at placed sorted
  generalize pickIncre stream threshold (curEid.drop count) 0 nodes staleness = incre at *
  generalize kept_eq : deletePicked (curEid.drop count) incre.1 = kept
  have perm := deletePicked_perm (fun pick member => (placed pick member).2) sorted
  rw [kept_eq] at perm
  rw [List.append_assoc, List.append_assoc, List.take_append_drop]
  calc curEid.take count ++ (incre.1.map Prod.fst ++ kept)
      _ ~ curEid.take count ++ curEid.drop count := perm.append_left _
      _ = curEid := List.take_append_drop count curEid

/-- A batch begins with the first edge that is left. -/
theorem nextBatch_head? (stream : EdgeStream) (threshold : Int) (eid : Nat) (eids : List Nat) :
    (nextBatch stream threshold (eid :: eids)).1.head? = some eid := by
  have count : min 2000 (eid :: eids).length = min 1999 eids.length + 1 := by
    rw [List.length_cons]
    omega
  simp only [nextBatch, count, List.take_succ_cons, List.cons_append, List.head?_cons]

/-! ## The batches of a block -/

/-- The batches of some edges: none is empty, and the first one begins with the first
edge. -/
structure Batched (curEid : List Nat) (batches : List (List Nat)) : Prop where
  perm : batches.flatten ~ curEid
  nonempty : ∀ batch ∈ batches, batch ≠ []
  first : batches.head?.bind List.head? = curEid.head?

theorem adaptiveLoop_batched (stream : EdgeStream) (threshold : Int) {fuel : Nat}
    {curEid : List Nat} (enough : curEid.length ≤ fuel) :
    ∃ batches, adaptiveLoop stream threshold fuel curEid = some batches ∧
      Batched curEid batches := by
  induction fuel generalizing curEid with
  | zero =>
      obtain rfl := List.eq_nil_of_length_eq_zero (Nat.le_zero.mp enough)
      exact ⟨[], rfl, ⟨List.Perm.refl _, by simp, rfl⟩⟩
  | succ fuel ih =>
      cases curEid with
      | nil => exact ⟨[], rfl, ⟨List.Perm.refl _, by simp, rfl⟩⟩
      | cons eid eids =>
          have perm := nextBatch_perm stream threshold (eid :: eids)
          have head := nextBatch_head? stream threshold eid eids
          have nonempty : (nextBatch stream threshold (eid :: eids)).1 ≠ [] := by
            rintro empty
            simp [empty] at head
          have shrinks : (nextBatch stream threshold (eid :: eids)).2.length ≤ fuel := by
            have total := perm.length_eq
            have positive := List.length_pos_of_ne_nil nonempty
            rw [List.length_append] at total
            omega
          obtain ⟨batches, run, batched⟩ := ih shrinks
          refine ⟨(nextBatch stream threshold (eid :: eids)).1 :: batches, ?_, ?_, ?_, head⟩
          · simp only [adaptiveLoop, run, Option.bind_eq_bind, Option.bind_some]
          · exact (batched.perm.append_left _).trans perm
          · exact List.forall_mem_cons.mpr ⟨nonempty, batched.nonempty⟩

/-- A block with edges is split. -/
theorem adaptiveSplit_batched (stream : EdgeStream) (threshold : Int) {curEid : List Nat}
    (nonempty : curEid ≠ []) :
    ∃ batches, adaptiveSplit stream threshold curEid = some batches ∧ Batched curEid batches := by
  obtain ⟨batches, run, batched⟩ :=
    adaptiveLoop_batched stream threshold (Nat.le_refl curEid.length)
  refine ⟨batches, ?_, batched⟩
  cases batches with
  | nil => exact absurd batched.perm.symm.eq_nil nonempty
  | cons batch batches =>
      simp only [adaptiveSplit, run, List.getLast?_cons, Option.bind_eq_bind, Option.bind_some]

/-- A block without edges is not. -/
theorem adaptiveSplit_nil (stream : EdgeStream) (threshold : Int) :
    adaptiveSplit stream threshold [] = none := rfl

/-! ## Batches without a threshold -/

/-- An edge brings two nodes at most. -/
theorem foldl_addNodes_length (stream : EdgeStream) (eids nodes : List Nat) :
    (eids.foldl (addNodes stream) nodes).length ≤ nodes.length + 2 * eids.length := by
  induction eids generalizing nodes with
  | nil => exact Nat.le_refl _
  | cons eid eids ih =>
      have insert_le (nodes : List Nat) (v : Nat) : (nodes.insert v).length ≤ nodes.length + 1 := by
        rw [List.length_insert]
        split <;> omega
      have added : (addNodes stream nodes eid).length ≤ nodes.length + 2 :=
        (insert_le _ _).trans (Nat.succ_le_succ (insert_le _ _))
      have rest := ih (addNodes stream nodes eid)
      rw [List.foldl_cons, List.length_cons]
      omega

/-- Without staleness to fill up a batch is the next 2000 edges. -/
theorem nextBatch_of_nonpos (stream : EdgeStream) {threshold : Int} (none_ : threshold ≤ 0)
    (curEid : List Nat) :
    nextBatch stream threshold curEid = (curEid.take 2000, curEid.drop 2000) := by
  have fill : ∀ (eids : List Nat) {staleness : Int}, threshold ≤ staleness →
      fillCount threshold eids staleness = 0 := by
    intro eids staleness reached
    cases eids with
    | nil => rfl
    | cons eid eids => exact if_neg (Int.not_lt.mpr reached)
  have pick : ∀ (eids nodes : List Nat) {staleness : Int}, threshold ≤ staleness →
      pickIncre stream threshold eids 0 nodes staleness = ([], staleness) := by
    intro eids nodes staleness reached
    cases eids with
    | nil => rfl
    | cons eid eids => exact if_neg (Int.not_lt.mpr reached)
  have nodes := foldl_addNodes_length stream (curEid.take (min 2000 curEid.length)) []
  rw [List.length_take, List.length_nil] at nodes
  have reached : threshold ≤ 2 * ((min 2000 curEid.length : Nat) : Int) -
      ((curEid.take (min 2000 curEid.length)).foldl (addNodes stream) []).length := by
    omega
  simp only [nextBatch, pick _ _ reached, fill _ reached, deletePicked, List.foldr_nil,
    List.map_nil, List.append_nil, List.take_zero, List.drop_zero]
  have left : curEid.drop (min 2000 curEid.length) = curEid.drop 2000 :=
    List.drop_eq_drop_iff.mpr (by omega)
  rw [← List.take_eq_take_min, left]

/-- The batches are then the edges, 2000 at a time. -/
theorem adaptiveLoop_length_ne_one {stream : EdgeStream} {threshold : Int} (none_ : threshold ≤ 0)
    {fuel : Nat} {curEid : List Nat} (more : curEid.length % 2000 ≠ 1)
    {batches : List (List Nat)} (run : adaptiveLoop stream threshold fuel curEid = some batches) :
    ∀ batch ∈ batches, batch.length ≠ 1 := by
  induction fuel generalizing curEid batches with
  | zero =>
      cases curEid with
      | nil =>
          obtain rfl := Option.some.inj run
          nofun
      | cons eid eids => cases run
  | succ fuel ih =>
      cases curEid with
      | nil =>
          obtain rfl := Option.some.inj run
          nofun
      | cons eid eids =>
          obtain ⟨rest, loop, same⟩ := Option.bind_eq_some_iff.mp run
          obtain rfl := Option.some.inj same
          rw [nextBatch_of_nonpos stream none_] at loop
          refine List.forall_mem_cons.mpr ⟨?_, ih ?_ loop⟩
          · rw [nextBatch_of_nonpos stream none_, List.length_take]
            omega
          · rw [List.length_drop]
            omega

end Dolphin.Eid
