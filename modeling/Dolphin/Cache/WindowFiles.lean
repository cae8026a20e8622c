import Dolphin.Cache.BlockPlans
import Dolphin.Cache.FlushBookkeeping

/-!
# The files of a run

The windows that `gen_part_stream` closes follow each other over all blocks, and every
feature file that its plan names is in one of the lists that are extracted.
-/

namespace Dolphin.Cache

open Dolphin.Tensor

/-! ## The windows of a run -/

theorem planWindows_append (ids : Nat → List Nat) (start : Nat) (side : Side)
    (early late : List (List Nat × Nat)) :
    planWindows ids start side (early ++ late) =
      planWindows ids (start + (early.map Prod.snd).sum) (planWindows ids start side early)
        late := by
  induction early generalizing start side with
  | nil => rfl
  | cons window early ih =>
      rw [List.cons_append, planWindows, ih, List.map_cons, List.sum_cons, ← Nat.add_assoc]
      rfl

namespace FlushInput

variable {input : FlushInput}

/-- Windows of these sizes, one after the other, with the ids chosen for them. -/
def chosenWindows (chosen : Nat → List Nat) (counts : List Nat) : List (List Nat × Nat) :=
  counts.zipIdx.map fun entry => (chosen entry.2, entry.1)

theorem chosenWindows_concat (chosen : Nat → List Nat) (counts : List Nat) (count : Nat) :
    chosenWindows chosen (counts ++ [count]) =
      chosenWindows chosen counts ++ [(chosen counts.length, count)] := by
  simp [chosenWindows, List.zipIdx_append]

theorem chosenWindows_blocks (chosen : Nat → List Nat) (counts : List Nat) :
    (chosenWindows chosen counts).map Prod.snd = counts := by
  rw [chosenWindows, List.map_map]
  exact List.zipIdx_map_fst 0 counts

/-- The sides when windows of these sizes are closed. -/
structure ClosedWindows (input : FlushInput) (counts : List Nat) (node edge : Side) : Prop where
  node : node = planWindows input.nidUni 0 .initial (chosenWindows input.cacheNid counts)
  edge : input.hasEf = true →
    edge = planWindows input.eidUni 0 .initial (chosenWindows input.cacheEid counts)

/-- The open window closes behind the others. -/
theorem ClosedWindows.close {counts : List Nat} {block : Nat}
    (closed : input.ClosedWindows counts (input.after block).node (input.after block).edge)
    (start : counts.sum = (input.after block).bucketCacheStart)
    (number : counts.length = (input.after block).preThresholdNum) :
    input.ClosedWindows (counts ++ [block - (input.after block).bucketCacheStart])
      (input.closeWindow (input.after block)).node
      (input.closeWindow (input.after block)).edge where
  node := by
    rw [chosenWindows_concat, planWindows_append, chosenWindows_blocks, Nat.zero_add, ← closed.node,
      start, number]
    simp only [PlanInput.closeWindow, planWindows, (input.bucketHis_eq block).1]
  edge := by
    intro hasEf
    rw [chosenWindows_concat, planWindows_append, chosenWindows_blocks, Nat.zero_add,
      ← closed.edge hasEf, start, number]
    simp only [PlanInput.closeWindow, hasEf, if_true, planWindows, (input.bucketHis_eq block).1]

/-- Before every turn some windows are closed, and the open one follows them. -/
theorem after_closedWindows (input : FlushInput) (block : Nat) : ∃ counts : List Nat,
    counts.sum = (input.after block).bucketCacheStart ∧
    counts.length = (input.after block).preThresholdNum ∧
    input.ClosedWindows counts (input.after block).node (input.after block).edge := by
  induction block with
  | zero => exact ⟨[], rfl, rfl, rfl, fun _ => rfl⟩
  | succ block ih =>
      obtain ⟨counts, start, number, closed⟩ := ih
      rw [PlanInput.after, PlanInput.step]
      split
      case isTrue passed =>
          refine ⟨counts ++ [block - (input.after block).bucketCacheStart], ?_, ?_,
            closed.close start number⟩
          · have early := (input.bucketHis_eq block).2.1
            simp only [List.sum_append, List.sum_singleton, start]
            omega
          · simp [number]
      case isFalse stays => exact ⟨counts, start, number, closed⟩

/-- The windows of `gen_part_stream` have all blocks. -/
theorem genPartStream_closedWindows (input : FlushInput) : ∃ counts : List Nat,
    counts.sum = input.blockNum ∧
    input.ClosedWindows counts input.genPartStream.node input.genPartStream.edge := by
  obtain ⟨counts, start, number, closed⟩ := input.after_closedWindows input.blockNum
  refine ⟨_, ?_, closed.close start number⟩
  have early := (input.bucketHis_eq input.blockNum).2.1
  rw [List.sum_append, List.sum_singleton, start]
  omega

end FlushInput

/-! ## The files of the plan -/

/-- What planning blocks writes for each. -/
theorem foldl_planBlock_partFeat (cacheIdx : List Nat) (bucketHis : List (Nat × List Nat))
    (side : Side) (block : Nat) :
    (block ∉ bucketHis.map Prod.fst ∧
      (bucketHis.foldl (planBlock cacheIdx) side).files.partFeat block =
        side.files.partFeat block) ∨
    ∃ full ids, (block, full) ∈ bucketHis ∧ ids ⊆ full ∧
      (bucketHis.foldl (planBlock cacheIdx) side).files.partFeat block = some ids := by
  induction bucketHis generalizing side with
  | nil => exact Or.inl ⟨List.not_mem_nil, rfl⟩
  | cons first rest ih =>
      rw [List.foldl_cons]
      rcases ih (planBlock cacheIdx side first) with ⟨later, kept⟩ | ⟨full, ids, member, part, own⟩
      · by_cases same : block = first.1
        · subst same
          refine Or.inr ⟨first.2, _, List.mem_cons_self, ?_,
            kept.trans (Function.update_self ..)⟩
          cases side.pre with
          | none => exact List.Subset.refl _
          | some pre => exact (maskSelect_sublist _ _).subset
        · refine Or.inl ⟨?_, kept.trans (Function.update_of_ne same _ _)⟩
          rw [List.map_cons, List.mem_cons, not_or]
          exact ⟨same, later⟩
      · exact Or.inr ⟨full, ids, List.mem_cons_of_mem _ member, part, own⟩

/-- Planning blocks writes nothing for another one. -/
theorem foldl_planBlock_other {cacheIdx : List Nat} {bucketHis : List (Nat × List Nat)}
    {side : Side} {block : Nat} (other : block ∉ bucketHis.map Prod.fst) :
    (bucketHis.foldl (planBlock cacheIdx) side).files.partFeat block = side.files.partFeat block ∧
      (bucketHis.foldl (planBlock cacheIdx) side).files.plannedWith block =
        side.files.plannedWith block := by
  induction bucketHis generalizing side with
  | nil => exact ⟨rfl, rfl⟩
  | cons first rest ih =>
      rw [List.map_cons, List.mem_cons, not_or] at other
      obtain ⟨part, planned⟩ := @ih (planBlock cacheIdx side first) other.2
      exact ⟨part.trans (Function.update_of_ne other.1 _ _),
        planned.trans (Function.update_of_ne other.1 _ _)⟩

/-- Nothing is written for blocks behind the windows. -/
theorem planWindows_behind {ids : Nat → List Nat} {start block : Nat} {side : Side}
    {windows : List (List Nat × Nat)} (behind : start + (windows.map Prod.snd).sum ≤ block) :
    (planWindows ids start side windows).files.partFeat block = side.files.partFeat block ∧
      (planWindows ids start side windows).files.plannedWith block =
        side.files.plannedWith block := by
  induction windows generalizing start side with
  | nil => exact ⟨rfl, rfl⟩
  | cons window windows ih =>
      rw [List.map_cons, List.sum_cons, ← Nat.add_assoc] at behind
      have other : block ∉ ((List.range' start window.2).map fun block =>
          (block, ids block)).map Prod.fst := by
        simp only [List.map_map, Function.comp_def, List.map_id', List.mem_range'_1]
        omega
      obtain ⟨part, planned⟩ := @ih _ (side.closeWindow start window.1
        ((List.range' start window.2).map fun block => (block, ids block))) behind
      obtain ⟨kept, keptPlan⟩ := @foldl_planBlock_other
        ((side.preBucketIdx.map (switchList · window.1)).getD window.1) _ side _ other
      exact ⟨part.trans kept, planned.trans keptPlan⟩

/-- What a closing window writes for its blocks. -/
theorem Side.closeWindow_partFeat (side : Side) (start : Nat) (chosen : List Nat)
    (bucketHis : List (Nat × List Nat)) (block : Nat) :
    (block ∉ bucketHis.map Prod.fst ∧
      (side.closeWindow start chosen bucketHis).files.partFeat block =
        side.files.partFeat block) ∨
    ∃ full ids, (block, full) ∈ bucketHis ∧ ids ⊆ full ∧
      (side.closeWindow start chosen bucketHis).files.partFeat block = some ids :=
  foldl_planBlock_partFeat _ bucketHis side block

/-- What a closing window writes for the cache: ids chosen for it. -/
theorem Side.closeWindow_cacheFeat (side : Side) (start : Nat) (chosen : List Nat)
    (bucketHis : List (Nat × List Nat)) : ∃ ids ⊆ chosen,
      (side.closeWindow start chosen bucketHis).files.cacheFeat =
        Function.update side.files.cacheFeat start (some ids) := by
  refine ⟨_, ?_, rfl⟩
  cases side.preBucketIdx with
  | none => exact List.Subset.refl _
  | some old => exact (maskSelect_sublist _ _).subset

/-- The lists of a side have the files of its plan. -/
structure FilesListed (side : FeatSide) (bound : Nat) (lists : List Listed) (files : SideFiles) :
    Prop where
  part : ∀ block ids, files.partFeat block = some ids → (ids, .part side block) ∈ lists
  cache : ∀ start ids, files.cacheFeat start = some ids → (ids, .cache side start) ∈ lists
  caches : ∀ list ∈ lists, ∀ start, list.2 = .cache side start → files.cacheFeat start ≠ none
  bounded : ∀ list ∈ lists, ∀ x ∈ list.1, x < bound

theorem FilesListed.initial (side : FeatSide) (bound : Nat) :
    FilesListed side bound [] Side.initial.files where
  part := nofun
  cache := nofun
  caches := nofun
  bounded := nofun

/-- The lists of a closing window. -/
theorem FilesListed.close {word : FeatSide} {bound start : Nat} {lists : List Listed} {side : Side}
    {chosen blocks : List Nat} {ids : Nat → List Nat} (listed : FilesListed word bound lists side.files)
    (known : ∀ x ∈ chosen, x < bound) (inBlocks : ∀ block, ∀ x ∈ ids block, x < bound) :
    let closed := side.closeWindow start chosen (blocks.map fun block => (block, ids block))
    FilesListed word bound (lists ++ windowLists word closed.files start blocks) closed.files := by
  have parts := side.closeWindow_partFeat start chosen (blocks.map fun block => (block, ids block))
  obtain ⟨incre, part, cached⟩ :=
    side.closeWindow_cacheFeat start chosen (blocks.map fun block => (block, ids block))
  simp only [List.map_map, Function.comp_def, List.map_id'] at parts
  generalize side.closeWindow start chosen (blocks.map fun block => (block, ids block)) = closed
    at parts cached
  have own : closed.files.cacheFeat start = some incre := by rw [cached, Function.update_self]
  refine ⟨fun block full named => ?_, fun first full named => ?_, fun list member first path => ?_,
    fun list member x inList => ?_⟩
  · rw [windowLists, List.mem_append, List.mem_append, List.mem_map]
    by_cases inWindow : block ∈ blocks
    · exact Or.inr (Or.inl ⟨block, inWindow, by rw [named]; rfl⟩)
    · rcases parts block with ⟨-, kept⟩ | ⟨_, _, member, -, -⟩
      · exact Or.inl (listed.part block full (kept.symm.trans named))
      · obtain ⟨_, inside, same⟩ := List.mem_map.mp member
        exact absurd ((Prod.mk.inj same).1 ▸ inside) inWindow
  · rw [windowLists, List.mem_append, List.mem_append, List.mem_singleton]
    by_cases same : first = start
    · subst same
      exact Or.inr (Or.inr (by rw [named]; rfl))
    · rw [cached, Function.update_of_ne same] at named
      exact Or.inl (listed.cache first full named)
  · rw [cached]
    by_cases same : first = start
    · rw [same, Function.update_self]
      exact Option.some_ne_none _
    · rw [Function.update_of_ne same]
      rw [windowLists, List.mem_append, List.mem_append, List.mem_map, List.mem_singleton] at member
      rcases member with early | ⟨block, -, rfl⟩ | rfl
      · exact listed.caches list early first path
      · cases path
      · exact absurd (SavePath.cache.inj path).2.symm same
  · rw [windowLists, List.mem_append, List.mem_append, List.mem_map, List.mem_singleton] at member
    rcases member with early | ⟨block, inWindow, rfl⟩ | rfl
    · exact listed.bounded list early x inList
    · rcases parts block with ⟨outside, -⟩ | ⟨full, found, member, below, named⟩
      · exact absurd inWindow outside
      · obtain ⟨other, -, same⟩ := List.mem_map.mp member
        obtain ⟨rfl, rfl⟩ := Prod.mk.inj same
        rw [named] at inList
        exact inBlocks _ x (below inList)
    · rw [own] at inList
      exact known x (part inList)

namespace FlushInput

variable {input : FlushInput}

/-- What closing windows keeps holds of all lists and the last files. -/
theorem filesListed_all {word : FeatSide} {bound : Nat} {lists : Nat → List Listed}
    {sides closed : Nat → Side} (first : sides 0 = .initial)
    (step : ∀ block, sides (block + 1) = if input.Closes block then closed block else sides block)
    (close : ∀ block seen, FilesListed word bound seen (sides block).files →
      FilesListed word bound (seen ++ lists block) (closed block).files) :
    FilesListed word bound (input.all lists) (closed input.blockNum).files := by
  have before : ∀ block, FilesListed word bound (input.before lists block) (sides block).files := by
    intro block
    induction block with
    | zero =>
        rw [first]
        exact FilesListed.initial word bound
    | succ block ih =>
        rw [FlushInput.before, step]
        by_cases closes : input.Closes block
        · simp only [if_pos closes]
          exact close block _ ih
        · simpa only [if_neg closes, List.append_nil] using ih
  exact close _ _ (before _)

theorem after_node (input : FlushInput) (block : Nat) : (input.after (block + 1)).node =
    if input.Closes block then (input.closeWindow (input.after block)).node
    else (input.after block).node := by
  rw [PlanInput.after, PlanInput.step, apply_ite PlanState.node]
  rfl

theorem after_edge (input : FlushInput) (block : Nat) : (input.after (block + 1)).edge =
    if input.Closes block then (input.closeWindow (input.after block)).edge
    else (input.after block).edge := by
  rw [PlanInput.after, PlanInput.step, apply_ite PlanState.edge]
  rfl

/-- The node files of the plan are extracted. -/
theorem nodeFiles_listed {nodeNum : Nat} (blocks : ∀ block, ∀ x ∈ input.nidUni block, x < nodeNum)
    (chosen : ∀ w, ∀ x ∈ input.cacheNid w, x < nodeNum) :
    FilesListed .node nodeNum (input.all input.nodeLists) input.genPartStream.node.files :=
  filesListed_all rfl input.after_node fun _ _ listed => listed.close (chosen _) blocks

/-- The edge files of the plan are extracted. -/
theorem edgeFiles_listed {edgeNum : Nat} (hasEf : input.hasEf = true)
    (blocks : ∀ block, ∀ x ∈ input.eidUni block, x < edgeNum)
    (chosen : ∀ w, ∀ x ∈ input.cacheEid w, x < edgeNum) :
    FilesListed .edge edgeNum (input.all input.edgeLists) input.genPartStream.edge.files := by
  refine @filesListed_all input .edge edgeNum input.edgeLists (fun block => (input.after block).edge)
    (fun block => (input.closeWindow (input.after block)).edge) rfl input.after_edge
    fun block seen listed => ?_
  rw [edgeLists, if_pos hasEf]
  simp only [PlanInput.closeWindow, hasEf, if_true]
  exact listed.close (chosen _) blocks

end FlushInput

end Dolphin.Cache
