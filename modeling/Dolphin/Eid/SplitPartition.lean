import Dolphin.Eid.Staleness

/-!
# The batches as a partition

`check_duplicate_eids` goes through all batches and reports an edge id that it has seen
before. The batches of a block pass it: together they are the block's edges, each once.
-/

namespace Dolphin.Eid

open Dolphin.Sampler
open scoped List

/-- The variables of `check_duplicate_eids`: the dictionaries by edge id, a place by its
batch and the index in it. -/
structure DuplicateCheck where
  seen : Nat → Option (Nat × Nat)
  hasDuplicate : Bool
  duplicateInfo : Nat → Option (List (Nat × Nat))

/-- `all_eids`: the edge ids with their places. -/
def allEids (eidResult : List (List Nat)) : List (Nat × Nat × Nat) :=
  eidResult.zipIdx.flatMap fun batch =>
    batch.1.zipIdx.map fun eid => (eid.1, batch.2, eid.2)

/-- `total_num`, to which every edge of a batch adds the length of the batch. -/
def totalNum (eidResult : List (List Nat)) : Nat :=
  (eidResult.map fun batch => (batch.map fun _ => batch.length).sum).sum

/-- A turn of the loop over `all_eids`. -/
def DuplicateCheck.turn (check : DuplicateCheck) (entry : Nat × Nat × Nat) : DuplicateCheck :=
  match check.seen entry.1 with
  | some first =>
      { check with
        hasDuplicate := true
        duplicateInfo := Function.update check.duplicateInfo entry.1
          (some ((check.duplicateInfo entry.1).getD [first] ++ [entry.2])) }
  | none => { check with seen := Function.update check.seen entry.1 (some entry.2) }

/-- The loop over `all_eids`. -/
def duplicateCheck (entries : List (Nat × Nat × Nat)) : DuplicateCheck :=
  entries.foldl DuplicateCheck.turn ⟨fun _ => none, false, fun _ => none⟩

/-- `check_duplicate_eids`. -/
def checkDuplicateEids (eidResult : List (List Nat)) :
    Bool × (Nat → Option (List (Nat × Nat))) × Nat :=
  let check := duplicateCheck (allEids eidResult)
  (check.hasDuplicate, check.duplicateInfo, totalNum eidResult)

/-! ## What the check reports -/

theorem map_zipIdx_fst {α : Type} (xs : List α) (start : Nat) :
    (xs.zipIdx start).map Prod.fst = xs := by
  rw [← List.unzip_fst, List.unzip_zipIdx_eq_prod]

/-- The ids that are looked at are those of the batches, in order. -/
theorem allEids_fst (eidResult : List (List Nat)) :
    (allEids eidResult).map Prod.fst = eidResult.flatten := by
  have batch (entry : List Nat × Nat) :
      (entry.1.zipIdx.map fun eid => (eid.1, entry.2, eid.2)).map Prod.fst = entry.1 := by
    rw [List.map_map]
    exact map_zipIdx_fst entry.1 0
  rw [allEids, List.map_flatMap]
  simp only [batch]
  rw [List.flatMap_def, map_zipIdx_fst]

/-- The check has seen the ids before it, and found a duplicate when they repeat one. -/
theorem duplicateCheck_spec (entries : List (Nat × Nat × Nat)) :
    (∀ eid, (duplicateCheck entries).seen eid = none ↔ eid ∉ entries.map Prod.fst) ∧
      ((duplicateCheck entries).hasDuplicate = false ↔ (entries.map Prod.fst).Nodup) := by
  induction entries using List.reverseRecOn with
  | nil => simp [duplicateCheck]
  | append_singleton entries entry ih =>
      obtain ⟨seen, found⟩ := ih
      have last : duplicateCheck (entries ++ [entry]) = (duplicateCheck entries).turn entry := by
        rw [duplicateCheck, List.foldl_append]
        rfl
      rw [last, DuplicateCheck.turn, List.map_append, List.map_singleton,
        List.nodup_append_comm, List.singleton_append, List.nodup_cons]
      cases before : (duplicateCheck entries).seen entry.1 with
      | none =>
          have fresh := (seen entry.1).mp before
          refine ⟨fun eid => ?_, ?_⟩
          · by_cases own : eid = entry.1
            · simp [own]
            · simp [own, seen eid]
          · simp [fresh, found]
      | some first =>
          have known : entry.1 ∈ entries.map Prod.fst := by
            by_contra fresh
            rw [(seen entry.1).mpr fresh] at before
            cases before
          refine ⟨fun eid => ?_, by simp [known]⟩
          by_cases own : eid = entry.1
          · simp [own, before, known]
          · simp [own, seen eid]

/-- The check reports no duplicate exactly when no id occurs twice, in one batch or in
two. -/
theorem checkDuplicateEids_iff (eidResult : List (List Nat)) :
    (checkDuplicateEids eidResult).1 = false ↔ eidResult.flatten.Nodup := by
  rw [← allEids_fst]
  exact (duplicateCheck_spec (allEids eidResult)).2

/-! ## The splitter -/

/-- The splitter cuts distinct edges into batches exactly when there is one: the loops
end, no batch is empty, the batches have each edge once, and the first one begins with
the first edge. -/
theorem adaptiveSplit_partition_iff (stream : EdgeStream) (threshold : Int) (curEid : List Nat)
    (distinct : curEid.Nodup) :
    (∃ batches, adaptiveSplit stream threshold curEid = some batches ∧
        SplitReaches stream threshold curEid (.outer batches []) ∧ Batched curEid batches ∧
        (checkDuplicateEids batches).1 = false) ↔ curEid ≠ [] := by
  constructor
  · rintro ⟨batches, split, -⟩ rfl
    rw [adaptiveSplit_nil] at split
    cases split
  · intro nonempty
    obtain ⟨batches, split, batched⟩ := adaptiveSplit_batched stream threshold nonempty
    refine ⟨batches, split, adaptiveSplit_reaches stream threshold split, batched, ?_⟩
    rw [checkDuplicateEids_iff]
    exact batched.perm.nodup_iff.mpr distinct

/-- Three edges are cut. -/
theorem loopStream_partition :
    [4, 2, 7].Nodup ∧
      ∃ batches, adaptiveSplit loopStream 3 [4, 2, 7] = some batches ∧
        SplitReaches loopStream 3 [4, 2, 7] (.outer batches []) ∧ Batched [4, 2, 7] batches ∧
        (checkDuplicateEids batches).1 = false :=
  ⟨by decide, (adaptiveSplit_partition_iff loopStream 3 [4, 2, 7] (by decide)).mpr (by simp)⟩

/-- Without an edge there is no last batch to read. -/
example : adaptiveSplit loopStream 3 [] = none := rfl

end Dolphin.Eid
