import Dolphin.Cache.GenPartStream

/-!
# The plans of the blocks

Wherever the cache windows close and whatever is chosen for them, every block but the
first is planned against the positives of the block before it and the cache list of
its own window, and its file is written for the positives that neither has.
-/

namespace Dolphin.Cache

/-- The windows of a side close one after the other: each has the ids chosen for it and
its number of blocks. -/
def planWindows (ids : Nat → List Nat) : Nat → Side → List (List Nat × Nat) → Side
  | _, side, [] => side
  | start, side, (chosen, count) :: windows =>
      planWindows ids (start + count)
        (side.closeWindow start chosen
          ((List.range' start count).map fun block => (block, ids block))) windows

/-- The files of a side when the first blocks are planned. -/
structure BlocksPlanned (ids : Nat → List Nat) (count : Nat) (side : Side) : Prop where
  pre : side.pre = if count = 0 then none else some (ids (count - 1))
  first : 0 < count → side.files.partFeat 0 = some (ids 0)
  later : ∀ block, block + 1 < count → ∃ cacheIdx,
    side.files.plannedWith (block + 1) = some cacheIdx ∧
    side.files.plan (block + 1) = some (blockPlan cacheIdx (ids block) (ids (block + 1))) ∧
    side.files.partFeat (block + 1) =
      some ((blockPlan cacheIdx (ids block) (ids (block + 1))).incremental (ids (block + 1)))

theorem BlocksPlanned.initial (ids : Nat → List Nat) : BlocksPlanned ids 0 Side.initial where
  pre := rfl
  first := by simp
  later := by simp

/-- One more block is planned. -/
theorem BlocksPlanned.planBlock {ids : Nat → List Nat} {count : Nat} {side : Side}
    (planned : BlocksPlanned ids count side) (cacheIdx : List Nat) :
    BlocksPlanned ids (count + 1) (planBlock cacheIdx side (count, ids count)) where
  pre := rfl
  first := by
    intro _
    cases count with
    | zero => simp [Cache.planBlock, planned.pre]
    | succ count => simpa [Cache.planBlock] using planned.first (Nat.succ_pos _)
  later := by
    intro block bound
    by_cases own : block + 1 = count
    · subst own
      exact ⟨cacheIdx, by simp [Cache.planBlock, planned.pre]⟩
    · simpa [Cache.planBlock, own] using planned.later block (by omega)

/-- The blocks of a window are planned with one list. -/
theorem BlocksPlanned.foldl {ids : Nat → List Nat} {start : Nat} {side : Side}
    (planned : BlocksPlanned ids start side) (cacheIdx : List Nat) (count : Nat) :
    BlocksPlanned ids (start + count)
      (((List.range' start count).map fun block => (block, ids block)).foldl
        (Cache.planBlock cacheIdx) side) := by
  induction count with
  | zero => simpa using planned
  | succ count ih =>
      rw [List.range'_concat, List.map_append, List.foldl_append, ← Nat.add_assoc]
      simpa using ih.planBlock cacheIdx

theorem BlocksPlanned.closeWindow {ids : Nat → List Nat} {start : Nat} {side : Side}
    (planned : BlocksPlanned ids start side) (chosen : List Nat) (count : Nat) :
    BlocksPlanned ids (start + count)
      (side.closeWindow start chosen
        ((List.range' start count).map fun block => (block, ids block))) :=
  let window := planned.foldl ((side.preBucketIdx.map (switchList · chosen)).getD chosen) count
  ⟨window.pre, window.first, window.later⟩

/-- However the windows close, all their blocks are planned. -/
theorem BlocksPlanned.planWindows {ids : Nat → List Nat} {start : Nat} {side : Side}
    (planned : BlocksPlanned ids start side) (windows : List (List Nat × Nat)) :
    BlocksPlanned ids (start + (windows.map Prod.snd).sum)
      (planWindows ids start side windows) := by
  induction windows generalizing start side with
  | nil => exact planned
  | cons window windows ih =>
      rw [List.map_cons, List.sum_cons, ← Nat.add_assoc]
      exact ih (planned.closeWindow window.1 window.2)

end Dolphin.Cache
