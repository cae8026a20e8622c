import Dolphin.Eid.Cuts

/-!
# Batches of a fixed size

`process` of `eid_certain_num.py` cuts the edges into train, validation and test
batches. The batches of the last two parts first go up to the next block of 60000 edges,
then to the end of their part.
-/

namespace Dolphin.Eid.CertainNum

open Dolphin.Sampler

/-- `fixed_batch_size`. -/
def fixedBatchSize : Nat := 2000

/-- `current_pos` and `batch_end`, which is unbound before the first batch. -/
structure Cursor where
  currentPos : Nat
  batchEnd : Option Nat

/-- The cursor behind a batch. -/
def Cursor.behind (batchEnd : Nat) : Cursor := ⟨batchEnd, some batchEnd⟩

@[simp] theorem Cursor.behind_currentPos (batchEnd : Nat) :
    (Cursor.behind batchEnd).currentPos = batchEnd := rfl

@[simp] theorem Cursor.behind_batchEnd (batchEnd : Nat) :
    (Cursor.behind batchEnd).batchEnd = some batchEnd := rfl

/-- The loop over the train edges: its batches, and the cursor where it ends. -/
def trainLoop (eids : List Nat) (trainEdgeEnd : Nat) :
    Nat → Cursor → Option (List (List Nat) × Cursor)
  | 0, cursor => if cursor.currentPos < trainEdgeEnd then none else some ([], cursor)
  | fuel + 1, cursor =>
      if cursor.currentPos < trainEdgeEnd then do
        let batchEnd := min (cursor.currentPos + fixedBatchSize) trainEdgeEnd
        let (batches, last) ← trainLoop eids trainEdgeEnd fuel (.behind batchEnd)
        some (slice eids cursor.currentPos batchEnd :: batches, last)
      else some ([], cursor)

/-- The loops over the validation and the test edges; `stop` is where the part ends and
`flag` its `first_…_block_flag`. -/
def splitLoop (eids : List Nat) (firstBlock stop : Nat) :
    Nat → Bool → Cursor → Option (List (List Nat) × Cursor)
  | 0, _, cursor => if cursor.currentPos < stop then none else some ([], cursor)
  | fuel + 1, flag, cursor =>
      if cursor.currentPos < stop then do
        let ended ← cursor.batchEnd
        let flag := if ended = firstBlock then false else flag
        let batchEnd :=
          if flag then min (cursor.currentPos + fixedBatchSize) firstBlock
          else min (cursor.currentPos + fixedBatchSize) stop
        let (batches, last) ← splitLoop eids firstBlock stop fuel flag (.behind batchEnd)
        some (slice eids cursor.currentPos batchEnd :: batches, last)
      else some ([], cursor)

/-- `first_val_block` and `first_test_block`. -/
def firstBlock (edgeEnd : Nat) : Nat := (edgeEnd / 60000 + 1) * 60000

/-- The train, the validation and the test batches. -/
structure Splits where
  train : List (List Nat)
  val : List (List Nat)
  test : List (List Nat)
  deriving DecidableEq

/-- `process` on the column `eid`. -/
def process (eids : List Nat) (trainEdgeEnd valEdgeEnd : Nat) : Option Splits := do
  let (train, cursor) ← trainLoop eids trainEdgeEnd trainEdgeEnd ⟨0, none⟩
  let (val, cursor) ← splitLoop eids (firstBlock trainEdgeEnd) valEdgeEnd valEdgeEnd true cursor
  let (test, _) ← splitLoop eids (firstBlock valEdgeEnd) eids.length eids.length true cursor
  some ⟨train, val, test⟩

/-! ## Where the loops end -/

theorem trainLoop_cuts {eids : List Nat} {stop fuel cur : Nat} (inside : stop ≤ eids.length)
    (low : cur ≤ stop) (enough : stop ≤ cur + fuel) :
    ∃ batches, trainLoop eids stop fuel (.behind cur) = some (batches, .behind stop) ∧
      Cuts eids cur batches stop := by
  induction fuel generalizing cur with
  | zero =>
      obtain rfl : cur = stop := by omega
      exact ⟨[], if_neg (Nat.lt_irrefl _), .nil _⟩
  | succ fuel ih =>
      by_cases more : cur < stop
      · have wide : cur < min (cur + fixedBatchSize) stop := by
          rw [fixedBatchSize]
          omega
        have room : min (cur + fixedBatchSize) stop ≤ stop := Nat.min_le_right _ _
        obtain ⟨batches, run, cuts⟩ := ih room (by omega)
        refine ⟨_, ?_, .cons wide (by omega) cuts⟩
        simp only [trainLoop, Cursor.behind_currentPos, if_pos more, run, Option.bind_eq_bind,
          Option.bind_some]
      · obtain rfl : cur = stop := by omega
        exact ⟨[], if_neg more, .nil _⟩

/-- The first turn binds `batch_end`. -/
theorem trainLoop_start {eids : List Nat} {stop : Nat} (positive : 0 < stop) :
    trainLoop eids stop stop ⟨0, none⟩ = trainLoop eids stop stop (.behind 0) := by
  obtain ⟨fuel, rfl⟩ := Nat.exists_eq_add_of_lt positive
  rfl

/-- Without its flag a loop ends where its part ends. -/
theorem splitLoop_rest {eids : List Nat} {firstBlock stop fuel cur : Nat}
    (inside : stop ≤ eids.length) (low : cur ≤ stop) (enough : stop ≤ cur + fuel) :
    ∃ batches, splitLoop eids firstBlock stop fuel false (.behind cur) =
        some (batches, .behind stop) ∧
      Cuts eids cur batches stop := by
  induction fuel generalizing cur with
  | zero =>
      obtain rfl : cur = stop := by omega
      exact ⟨[], if_neg (Nat.lt_irrefl _), .nil _⟩
  | succ fuel ih =>
      by_cases more : cur < stop
      · have wide : cur < min (cur + fixedBatchSize) stop := by
          rw [fixedBatchSize]
          omega
        have room : min (cur + fixedBatchSize) stop ≤ stop := Nat.min_le_right _ _
        obtain ⟨batches, run, cuts⟩ := ih room (by omega)
        refine ⟨_, ?_, .cons wide (by omega) cuts⟩
        simp only [splitLoop, Cursor.behind_currentPos, Cursor.behind_batchEnd, if_pos more,
          ite_self, Bool.false_eq_true, if_false, run, Option.bind_eq_bind, Option.bind_some]
      · obtain rfl : cur = stop := by omega
        exact ⟨[], if_neg more, .nil _⟩

/-- Where a loop ends that starts with its flag: at the end of the part if the next block
begins inside the part, else behind the batch that reaches the end. -/
def splitEnd (firstBlock stop cur : Nat) : Nat :=
  if firstBlock ≤ stop then stop
  else min (cur + (stop - cur + 1999) / 2000 * 2000) firstBlock

theorem splitLoop_cuts {eids : List Nat} {firstBlock stop fuel cur : Nat}
    (inside : stop ≤ eids.length) (low : cur ≤ firstBlock) (enough : stop ≤ cur + fuel) :
    ∃ batches, splitLoop eids firstBlock stop fuel true (.behind cur) =
        some (batches, .behind (splitEnd firstBlock stop cur)) ∧
      Cuts eids cur batches (splitEnd firstBlock stop cur) := by
  induction fuel generalizing cur with
  | zero =>
      have ends : splitEnd firstBlock stop cur = cur := by
        rw [splitEnd]
        split <;> omega
      rw [ends]
      exact ⟨[], if_neg (by simp only [Cursor.behind]; omega), .nil _⟩
  | succ fuel ih =>
      by_cases more : cur < stop
      · by_cases reached : cur = firstBlock
        · subst reached
          -- The flag falls here, so the turn is one without it.
          have ends : splitEnd cur stop cur = stop := if_pos (Nat.le_of_lt more)
          have fallen : splitLoop eids cur stop (fuel + 1) true (.behind cur) =
              splitLoop eids cur stop (fuel + 1) false (.behind cur) := by
            simp only [splitLoop, Cursor.behind_currentPos, Cursor.behind_batchEnd,
              Option.bind_eq_bind, Option.bind_some, if_true]
          rw [ends, fallen]
          exact splitLoop_rest inside (Nat.le_of_lt more) enough
        · have wide : cur < min (cur + fixedBatchSize) firstBlock := by
            rw [fixedBatchSize]
            omega
          have ends : splitEnd firstBlock stop (min (cur + fixedBatchSize) firstBlock) =
              splitEnd firstBlock stop cur := by
            rw [splitEnd, splitEnd, fixedBatchSize]
            split
            · rfl
            · omega
          have room : min (cur + fixedBatchSize) firstBlock ≤ firstBlock := Nat.min_le_right _ _
          obtain ⟨batches, run, cuts⟩ := ih room (by rw [fixedBatchSize] at wide ⊢; omega)
          rw [ends] at run cuts
          refine ⟨_, ?_, .cons wide (by omega) cuts⟩
          simp only [splitLoop, Cursor.behind_currentPos, Cursor.behind_batchEnd, if_pos more,
            if_neg reached, if_true, run, Option.bind_eq_bind, Option.bind_some]
      · have ends : splitEnd firstBlock stop cur = cur := by
          rw [splitEnd]
          split <;> omega
        rw [ends]
        exact ⟨[], if_neg more, .nil _⟩

/-! ## The three parts -/

theorem lt_firstBlock (edgeEnd : Nat) : edgeEnd < firstBlock edgeEnd := by
  rw [firstBlock]
  omega

/-- A loop reaches the end of its part. -/
theorem le_splitEnd (firstBlock stop cur : Nat) : stop ≤ splitEnd firstBlock stop cur := by
  rw [splitEnd]
  split <;> omega

theorem splitEnd_le {firstBlock stop bound cur : Nat} (inside : stop ≤ bound)
    (next : firstBlock ≤ bound) : splitEnd firstBlock stop cur ≤ bound := by
  rw [splitEnd]
  split <;> omega

/-- A loop goes no further than its part if the part ends on one of its cuts. -/
theorem splitEnd_eq_iff {firstBlock stop cur : Nat} (low : cur ≤ stop) :
    splitEnd firstBlock stop cur = stop ↔ firstBlock ≤ stop ∨ 2000 ∣ stop - cur := by
  rw [splitEnd]
  split <;> omega

/-- The end of the validation loop. -/
def valEnd (trainEdgeEnd valEdgeEnd : Nat) : Nat :=
  splitEnd (firstBlock trainEdgeEnd) valEdgeEnd trainEdgeEnd

/-- `process` ends, and its batches cut the edges where its loops end. -/
theorem process_cuts {eids : List Nat} {trainEdgeEnd valEdgeEnd : Nat}
    (positive : 0 < trainEdgeEnd) (order : trainEdgeEnd ≤ valEdgeEnd)
    (inside : valEdgeEnd ≤ eids.length) :
    ∃ splits, process eids trainEdgeEnd valEdgeEnd = some splits ∧
      Cuts eids 0 splits.train trainEdgeEnd ∧
      Cuts eids trainEdgeEnd splits.val (valEnd trainEdgeEnd valEdgeEnd) ∧
      Cuts eids (valEnd trainEdgeEnd valEdgeEnd) splits.test
        (splitEnd (firstBlock valEdgeEnd) eids.length (valEnd trainEdgeEnd valEdgeEnd)) := by
  have next : firstBlock trainEdgeEnd ≤ firstBlock valEdgeEnd := by
    rw [firstBlock, firstBlock]
    omega
  have low : valEnd trainEdgeEnd valEdgeEnd ≤ firstBlock valEdgeEnd :=
    splitEnd_le (Nat.le_of_lt (lt_firstBlock _)) next
  obtain ⟨train, trainRun, trainCuts⟩ := @trainLoop_cuts eids trainEdgeEnd trainEdgeEnd 0
    (by omega) (Nat.zero_le _) (by omega)
  obtain ⟨val, valRun, valCuts⟩ := @splitLoop_cuts eids (firstBlock trainEdgeEnd) valEdgeEnd
    valEdgeEnd trainEdgeEnd inside (Nat.le_of_lt (lt_firstBlock _)) (by omega)
  obtain ⟨test, testRun, testCuts⟩ := @splitLoop_cuts eids (firstBlock valEdgeEnd) eids.length
    eids.length (valEnd trainEdgeEnd valEdgeEnd) (Nat.le_refl _) low (by omega)
  refine ⟨⟨train, val, test⟩, ?_, trainCuts, valCuts, testCuts⟩
  rw [valEnd] at testRun
  simp only [process, trainLoop_start positive, trainRun, valRun, testRun, Option.bind_eq_bind,
    Option.bind_some]

/-- The parts hold their edges once and in order, and no batch is empty. -/
def CoversExactly (total trainEdgeEnd valEdgeEnd : Nat) : Prop :=
  ∃ splits, process (List.range total) trainEdgeEnd valEdgeEnd = some splits ∧
    splits.train.flatten = List.range' 0 trainEdgeEnd ∧
    splits.val.flatten = List.range' trainEdgeEnd (valEdgeEnd - trainEdgeEnd) ∧
    splits.test.flatten = List.range' valEdgeEnd (total - valEdgeEnd) ∧
    ∀ batch ∈ splits.train ++ splits.val ++ splits.test, batch ≠ []

/-- The parts are exact unless the validation edges end inside a batch before the first
block behind the train edges, with test edges behind them. -/
theorem coversExactly_iff {total trainEdgeEnd valEdgeEnd : Nat} (positive : 0 < trainEdgeEnd)
    (order : trainEdgeEnd ≤ valEdgeEnd) (inside : valEdgeEnd ≤ total) :
    CoversExactly total trainEdgeEnd valEdgeEnd ↔
      valEdgeEnd = total ∨ firstBlock trainEdgeEnd ≤ valEdgeEnd ∨
        2000 ∣ valEdgeEnd - trainEdgeEnd := by
  have length : (List.range total).length = total := List.length_range
  obtain ⟨splits, run, train, val, test⟩ :=
    process_cuts positive order (inside.trans (Nat.le_of_eq length.symm))
  have exact_ : valEnd trainEdgeEnd valEdgeEnd = valEdgeEnd ↔ _ := splitEnd_eq_iff order
  have reached : valEdgeEnd ≤ valEnd trainEdgeEnd valEdgeEnd := le_splitEnd _ _ _
  have all := le_splitEnd (firstBlock valEdgeEnd) (List.range total).length
    (valEnd trainEdgeEnd valEdgeEnd)
  have trainEdges := train.flatten
  have valEdges := val.flatten
  have testEdges := test.flatten
  rw [slice_range] at trainEdges valEdges testEdges
  constructor
  · rintro ⟨other, otherRun, -, valExact, -, -⟩
    obtain rfl : splits = other := Option.some.inj (run.symm.trans otherRun)
    have count := congrArg List.length (valEdges.symm.trans valExact)
    rw [List.length_range', List.length_range'] at count
    rw [← exact_]
    omega
  · intro cut
    have ends : valEdgeEnd = total ∨ valEnd trainEdgeEnd valEdgeEnd = valEdgeEnd :=
      cut.imp id exact_.mpr
    refine ⟨splits, run, ?_, ?_, ?_, ?_⟩
    · rw [trainEdges]
      congr 1
      omega
    · rw [valEdges]
      congr 1
      omega
    · have count : min (splitEnd (firstBlock valEdgeEnd) (List.range total).length
          (valEnd trainEdgeEnd valEdgeEnd)) total - valEnd trainEdgeEnd valEdgeEnd =
          total - valEdgeEnd := by omega
      rw [testEdges, count]
      rcases ends with full | ended
      · rw [full, Nat.sub_self, List.range'_zero, List.range'_zero]
      · rw [ended]
    · intro batch member
      simp only [List.mem_append] at member
      rcases member with (member | member) | member
      · exact train.ne_nil batch member
      · exact val.ne_nil batch member
      · exact test.ne_nil batch member

/-- Train ends in the middle of the second block and val in the third one. -/
theorem coversExactly_iff_thirdBlock :
    CoversExactly 200000 118000 124000 ↔
      124000 = 200000 ∨ firstBlock 118000 ≤ 124000 ∨ 2000 ∣ 124000 - 118000 :=
  coversExactly_iff (by decide) (by decide) (by decide)

/-- One edge for each part: the second batch also has the edge of the test part. -/
theorem val_takes_test_edge :
    process (List.range 3) 1 2 = some ⟨[[0]], [[1, 2]], []⟩ ∧ ¬CoversExactly 3 1 2 := by
  have run : process (List.range 3) 1 2 = some ⟨[[0]], [[1, 2]], []⟩ := by decide
  refine ⟨run, ?_⟩
  rintro ⟨splits, same, -, val, -⟩
  obtain rfl := Option.some.inj (run.symm.trans same)
  exact absurd val (by decide)

end Dolphin.Eid.CertainNum
