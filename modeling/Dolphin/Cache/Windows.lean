import Dolphin.Cache.GenPartStream

/-!
# The windows of the planner

`windowNum` numbers the cache windows and `cacheList` gives each its cache list.
After any number of turns the files of the closed windows are those of
`SidePlanned`: every block is planned with the list of its own window, and a
window's mask and incremental ids stand under the number of its first block.
-/

namespace Dolphin.Cache

open Dolphin.Tensor

/-! ## The lists of a side -/

/-- The cache list of a window, given the ids chosen for each window. -/
def cacheList (chosen : Nat → List Nat) : Nat → List Nat
  | 0 => chosen 0
  | w + 1 => switchList (cacheList chosen w) (chosen (w + 1))

/-- The ids whose features a window's cache file holds. -/
def increList (chosen : Nat → List Nat) : Nat → List Nat
  | 0 => chosen 0
  | w + 1 => maskSelect (isin (chosen (w + 1)) (cacheList chosen w) true) (chosen (w + 1))

/-- The slots a window overwrites; the first one has no mask file. -/
def increMask (chosen : Nat → List Nat) : Nat → Option (List Bool)
  | 0 => none
  | w + 1 => some (isin (cacheList chosen w) (chosen (w + 1)) true)

namespace PlanInput

variable (input : PlanInput)

/-- The number of windows that are closed before a block's own turn; after its
turn, the number of the block's window. -/
def windowNum : Nat → Nat
  | 0 => 0
  | block + 1 =>
      if windowNum block < input.right block / threshold then windowNum block + 1
      else windowNum block

/-- The window a block belongs to. -/
def windowOf (block : Nat) : Nat := input.windowNum (block + 1)

/-- The block is the first one of its window. -/
def Opens (block : Nat) : Prop := block = 0 ∨ input.windowOf block ≠ input.windowNum block

/-- The files of a side when `windows` windows are closed and the open one starts
at block `start`. -/
structure SidePlanned (chosen : Nat → List Nat) (windows start : Nat) (side : Side) : Prop where
  preBucketIdx : side.preBucketIdx = if windows = 0 then none
    else some (cacheList chosen (windows - 1))
  plannedWith : ∀ block < start,
    side.files.plannedWith block = some (cacheList chosen (input.windowOf block))
  opened : ∀ block < start, input.Opens block →
    side.files.cacheFeat block = some (increList chosen (input.windowOf block)) ∧
    side.files.increMask block = increMask chosen (input.windowOf block) ∧
    side.files.bucketCacheIdx block = some (cacheList chosen (input.windowOf block))
  silent : ∀ block, start ≤ block ∨ ¬ input.Opens block →
    side.files.cacheFeat block = none ∧ side.files.increMask block = none

end PlanInput

/-- Planning blocks writes their plans and leaves the window files alone. -/
theorem foldl_planBlock (cacheIdx : List Nat) (bucketHis : List (Nat × List Nat)) (side : Side) :
    (bucketHis.foldl (planBlock cacheIdx) side).files.cacheFeat = side.files.cacheFeat ∧
    (bucketHis.foldl (planBlock cacheIdx) side).files.increMask = side.files.increMask ∧
    (bucketHis.foldl (planBlock cacheIdx) side).files.bucketCacheIdx =
      side.files.bucketCacheIdx ∧
    ∀ block, (bucketHis.foldl (planBlock cacheIdx) side).files.plannedWith block =
      if block ∈ bucketHis.map Prod.fst then some cacheIdx else side.files.plannedWith block := by
  induction bucketHis generalizing side with
  | nil => simp
  | cons first rest ih =>
      obtain ⟨cacheFeat, mask, idx, planned⟩ := ih (planBlock cacheIdx side first)
      refine ⟨cacheFeat, mask, idx, fun block => ?_⟩
      rw [List.foldl_cons, planned block]
      by_cases later : block ∈ rest.map Prod.fst
      · simp [later]
      · by_cases same : block = first.1
        · simp [planBlock, same]
        · simp [planBlock, later, same]

namespace PlanInput

variable {input : PlanInput}

/-- The list, the mask and the incremental ids of a closing window. -/
theorem SidePlanned.switched {chosen : Nat → List Nat} {windows start : Nat} {side : Side}
    (planned : input.SidePlanned chosen windows start side) :
    (side.preBucketIdx.map (switchList · (chosen windows))).getD (chosen windows) =
      cacheList chosen windows ∧
    (side.preBucketIdx.map fun old => isin old (chosen windows) true) =
      increMask chosen windows ∧
    (side.preBucketIdx.map fun old =>
      maskSelect (isin (chosen windows) old true) (chosen windows)).getD (chosen windows) =
      increList chosen windows := by
  rw [planned.preBucketIdx]
  cases windows with
  | zero => exact ⟨rfl, rfl, rfl⟩
  | succ w => exact ⟨rfl, rfl, rfl⟩

/-- A window that closes adds its own files. -/
theorem SidePlanned.closeWindow {chosen : Nat → List Nat} {windows start stop : Nat} {side : Side}
    (planned : input.SidePlanned chosen windows start side) (nonempty : start < stop)
    (opens : input.Opens start)
    (inside : ∀ block, start ≤ block → block < stop → input.windowOf block = windows)
    (others : ∀ block, start < block → block < stop → ¬ input.Opens block)
    {bucketHis : List (Nat × List Nat)}
    (blocks : bucketHis.map Prod.fst = List.range' start (stop - start)) :
    input.SidePlanned chosen (windows + 1) stop
      (side.closeWindow start (chosen windows) bucketHis) := by
  obtain ⟨list, mask, incre⟩ := planned.switched
  obtain ⟨-, -, -, plannedWith⟩ := foldl_planBlock (cacheList chosen windows) bucketHis side
  have own := inside start (Nat.le_refl _) nonempty
  have masks : ∀ block, block ≠ start →
      (side.closeWindow start (chosen windows) bucketHis).files.increMask block =
        side.files.increMask block := by
    intro block other
    simp only [Side.closeWindow, mask]
    cases increMask chosen windows with
    | none => rfl
    | some m => simp [other]
  refine ⟨?_, ?_, ?_, ?_⟩
  · simp [Side.closeWindow, list]
  · intro block before
    simp only [Side.closeWindow, list, plannedWith, blocks, List.mem_range'_1]
    by_cases old : block < start
    · rw [if_neg (by omega), planned.plannedWith block old]
    · rw [if_pos (by omega), inside block (by omega) before]
  · intro block before opened
    by_cases old : block < start
    · obtain ⟨cacheFeat, increMask, idx⟩ := planned.opened block old opened
      have other : block ≠ start := by omega
      refine ⟨?_, (masks block other).trans increMask, ?_⟩
      · simpa [Side.closeWindow, other] using cacheFeat
      · simpa [Side.closeWindow, other] using idx
    · have same : block = start := by
        by_contra other
        exact others block (by omega) before opened
      subst same
      rw [own]
      refine ⟨by simp [Side.closeWindow, incre], ?_, by simp [Side.closeWindow, list]⟩
      simp only [Side.closeWindow, mask]
      cases none_ : increMask chosen windows with
      | none => exact (planned.silent block (Or.inl (Nat.le_refl _))).2
      | some m => simp
  · intro block silent
    have other : block ≠ start := by
      rintro rfl
      rcases silent with late | closed
      · omega
      · exact closed opens
    have before : start ≤ block ∨ ¬ input.Opens block := by
      rcases silent with late | closed
      · exact Or.inl (by omega)
      · exact Or.inr closed
    obtain ⟨cacheFeat, increMask⟩ := planned.silent block before
    exact ⟨by simpa [Side.closeWindow, other] using cacheFeat, (masks block other).trans increMask⟩

/-! ## The loop -/

/-- What holds after some turns of the loop. -/
structure Planned (input : PlanInput) (turns : Nat) (state : PlanState) : Prop where
  preThresholdNum : state.preThresholdNum = input.windowNum turns
  start_le : state.bucketCacheStart ≤ turns
  start_lt : 0 < turns → state.bucketCacheStart < turns
  opens : input.Opens state.bucketCacheStart
  inside : ∀ block, state.bucketCacheStart ≤ block → block < turns →
    input.windowOf block = input.windowNum turns
  others : ∀ block, state.bucketCacheStart < block → block < turns → ¬ input.Opens block
  bucketHis : state.bucketHis =
    List.range' state.bucketCacheStart (turns - state.bucketCacheStart)
  node : input.SidePlanned input.cacheNid (input.windowNum turns) state.bucketCacheStart state.node
  edge : input.hasEf = true →
    input.SidePlanned input.cacheEid (input.windowNum turns) state.bucketCacheStart state.edge

theorem SidePlanned.initial (chosen : Nat → List Nat) :
    input.SidePlanned chosen 0 0 Side.initial where
  preBucketIdx := rfl
  plannedWith := by simp
  opened := by simp
  silent := fun _ _ => ⟨rfl, rfl⟩

/-- The sides after a window closes. -/
theorem Planned.closed {turns : Nat} {state : PlanState} (planned : input.Planned turns state)
    (positive : 0 < turns) :
    input.SidePlanned input.cacheNid (input.windowNum turns + 1) turns
      (input.closeWindow state).node ∧
    (input.hasEf = true → input.SidePlanned input.cacheEid (input.windowNum turns + 1) turns
      (input.closeWindow state).edge) := by
  have blocks : ∀ ids : Nat → List Nat,
      (state.bucketHis.map fun block => (block, ids block)).map Prod.fst =
        List.range' state.bucketCacheStart (turns - state.bucketCacheStart) := by
    intro ids
    rw [planned.bucketHis, List.map_map]
    exact List.map_id _
  unfold PlanInput.closeWindow
  rw [planned.preThresholdNum]
  refine ⟨?_, fun hasEf => ?_⟩
  · exact planned.node.closeWindow (planned.start_lt positive) planned.opens planned.inside
      planned.others (blocks _)
  · simp only [hasEf, if_true]
    exact (planned.edge hasEf).closeWindow (planned.start_lt positive) planned.opens
      planned.inside planned.others (blocks _)

/-- One turn of the loop. The first block must not reach the threshold: a window
would close without a block. -/
theorem Planned.step {turns : Nat} {state : PlanState} (planned : input.Planned turns state)
    (small : input.right 0 < threshold) : input.Planned (turns + 1) (input.step state turns) := by
  unfold PlanInput.step
  rw [planned.preThresholdNum]
  split
  case isTrue passed =>
      have next : input.windowNum (turns + 1) = input.windowNum turns + 1 := by
        rw [windowNum, if_pos passed]
      have positive : 0 < turns := by
        by_contra none_
        obtain rfl : turns = 0 := by omega
        rw [Nat.div_eq_of_lt small] at passed
        exact absurd passed (by simp)
      obtain ⟨node, edge⟩ := planned.closed positive
      rw [← next] at node edge
      refine ⟨next.symm, by simp, by simp, Or.inr ?_, ?_, ?_, ?_, node, edge⟩
      · simp only [windowOf, next]
        omega
      · intro block low high
        obtain rfl : block = turns := by simp only at low; omega
        rfl
      · intro block low high
        simp only at low
        omega
      · simp
  case isFalse stays =>
      have next : input.windowNum (turns + 1) = input.windowNum turns := by
        rw [windowNum, if_neg stays]
      have start := planned.start_le
      have node := planned.node
      have edge := planned.edge
      rw [← next] at node edge
      refine ⟨next.symm, Nat.le_succ_of_le start,
        fun _ => Nat.lt_succ_of_le start, planned.opens, ?_, ?_, ?_, node, edge⟩
      · intro block low high
        by_cases last : block = turns
        · rw [last]
          rfl
        · rw [next]
          exact planned.inside block low (by omega)
      · intro block low high
        by_cases last : block = turns
        · subst last
          rintro (zero | other)
          · simp only at low
            omega
          · exact other next
        · exact planned.others block low (by omega)
      · simp only [planned.bucketHis]
        rw [show turns + 1 - state.bucketCacheStart = turns - state.bucketCacheStart + 1 by omega,
          List.range'_concat]
        congr 2
        omega

/-- The loop keeps its invariant. -/
theorem after_planned (small : input.right 0 < threshold) (turns : Nat) :
    input.Planned turns (input.after turns) := by
  induction turns with
  | zero =>
      exact ⟨rfl, Nat.le_refl _, by simp, Or.inl rfl, by simp, by simp, rfl,
        SidePlanned.initial _, fun _ => SidePlanned.initial _⟩
  | succ turns ih => exact ih.step small

/-- The files at the end of `gen_part_stream`. -/
theorem genPartStream_planned (small : input.right 0 < threshold) (some_ : 0 < input.blockNum) :
    input.SidePlanned input.cacheNid (input.windowNum input.blockNum + 1) input.blockNum
      input.genPartStream.node ∧
    (input.hasEf = true →
      input.SidePlanned input.cacheEid (input.windowNum input.blockNum + 1) input.blockNum
        input.genPartStream.edge) :=
  (after_planned small input.blockNum).closed some_

/-- Without edge features no edge file is written. -/
theorem genPartStream_edge (none_ : input.hasEf = false) :
    input.genPartStream.edge = Side.initial := by
  have turns : ∀ n, (input.after n).edge = Side.initial := by
    intro n
    induction n with
    | zero => rfl
    | succ n ih =>
        rw [PlanInput.after, PlanInput.step]
        split
        · simp only [PlanInput.closeWindow, none_]
          exact ih
        · exact ih
  simp only [genPartStream, PlanInput.closeWindow, none_]
  exact turns _

end PlanInput

end Dolphin.Cache
