import Dolphin.Cache.Windows

/-!
# Replaying the cache windows online

The worker starts from the first window's cache file and refreshes its cache at
the first block of every later window. It looks for the window's edge file only,
so without edge features the node cache stays what it was.
-/

namespace Dolphin.Cache

open Dolphin.Tensor

variable {α β : Type}

/-- `bucket_cache_node_feat`, `bucket_cache_edge_feat` and their id maps. -/
structure CacheState (α β : Type) where
  nodeFeat : List α
  edgeFeat : Option (List β)
  nodeMap : List Nat
  edgeMap : Option (List Nat)

/-- `run_batch` at block 0 and `init_bucket_cache`: the caches of the first window.
A feature file holds the features of its id list, in list order. -/
def initBucketCache (node edge : SideFiles) (hasEf : Bool) (nodeFeature : Nat → α)
    (edgeFeature : Nat → β) : Option (CacheState α β) := do
  let nids ← node.cacheFeat 0
  let nodeMap ← node.bucketCacheIdx 0
  let edgeFeat ← if hasEf then (edge.cacheFeat 0).map fun ids => some (ids.map edgeFeature)
    else some none
  some ⟨nids.map nodeFeature, edgeFeat, nodeMap, edge.bucketCacheIdx 0⟩

/-- The cache refresh of `pre_fetch(block_num)`, guarded by the existence of
`cache_edge_feat_{block_num}.bin`. A file that is missing behind the guard makes
the call fail. -/
def refreshCache (node edge : SideFiles) (nodeFeature : Nat → α) (edgeFeature : Nat → β)
    (cache : CacheState α β) (blockNum : Nat) : Option (CacheState α β) :=
  match edge.cacheFeat blockNum with
  | none => some cache
  | some eids => do
      let eidMask ← edge.increMask blockNum
      let edgeMap ← edge.bucketCacheIdx blockNum
      let edgeFeat ← cache.edgeFeat
      let nidMask ← node.increMask blockNum
      let nids ← node.cacheFeat blockNum
      let nodeMap ← node.bucketCacheIdx blockNum
      some
        { nodeFeat := maskAssign cache.nodeFeat nidMask (nids.map nodeFeature)
          edgeFeat := some (maskAssign edgeFeat eidMask (eids.map edgeFeature))
          nodeMap := nodeMap
          edgeMap := some edgeMap }

/-- The caches when `pre_fetch(blockNum)` decodes its block, after the calls for
the blocks `1, …, blockNum`. -/
def cacheAt (node edge : SideFiles) (hasEf : Bool) (nodeFeature : Nat → α)
    (edgeFeature : Nat → β) : Nat → Option (CacheState α β)
  | 0 => initBucketCache node edge hasEf nodeFeature edgeFeature
  | block + 1 => do
      let cache ← cacheAt node edge hasEf nodeFeature edgeFeature block
      refreshCache node edge nodeFeature edgeFeature cache (block + 1)

namespace PlanInput

variable (input : PlanInput)

/-- The caches of a run over the files that the planner wrote. -/
def cacheAt (nodeFeature : Nat → α) (edgeFeature : Nat → β) (block : Nat) :
    Option (CacheState α β) :=
  Cache.cacheAt input.genPartStream.node.files input.genPartStream.edge.files input.hasEf
    nodeFeature edgeFeature block

/-- When block `block` is decoded, every slot of the caches holds the feature of
the id that the planner had there when it computed the block's indices. -/
def SynchronisedAt (nodeFeature : Nat → α) (edgeFeature : Nat → β) (block : Nat) : Prop :=
  ∃ cache, input.cacheAt nodeFeature edgeFeature block = some cache ∧
    (∃ nids, input.genPartStream.node.files.plannedWith block = some nids ∧
      ∀ s id : Nat, nids[s]? = some id → cache.nodeFeat[s]? = some (nodeFeature id)) ∧
    (input.hasEf = true →
      ∃ eids rows, input.genPartStream.edge.files.plannedWith block = some eids ∧
        cache.edgeFeat = some rows ∧
        ∀ s id : Nat, eids[s]? = some id → rows[s]? = some (edgeFeature id))

variable {input}

theorem windowOf_zero (small : input.right 0 < threshold) : input.windowOf 0 = 0 := by
  rw [windowOf, windowNum, if_neg]
  · rfl
  · rw [Nat.div_eq_of_lt small]
    simp

/-- A block that opens a window moves to the next one; another block does not. -/
theorem windowOf_succ (input : PlanInput) (block : Nat) :
    input.Opens (block + 1) ∧ input.windowOf (block + 1) = input.windowOf block + 1 ∨
      ¬ input.Opens (block + 1) ∧ input.windowOf (block + 1) = input.windowOf block := by
  have next : input.windowOf (block + 1) =
      if input.windowOf block < input.right (block + 1) / threshold then input.windowOf block + 1
      else input.windowOf block := rfl
  have here : input.windowNum (block + 1) = input.windowOf block := rfl
  unfold Opens
  rw [here, next]
  split
  · exact Or.inl ⟨Or.inr (by omega), rfl⟩
  · exact Or.inr ⟨by simp, rfl⟩

/-- The next list of a column, from the overwritten slots alone. -/
theorem map_cacheList_succ {γ : Type} (feature : Nat → γ) (chosen : Nat → List Nat) (w : Nat) :
    maskAssign ((cacheList chosen w).map feature)
      (isin (cacheList chosen w) (chosen (w + 1)) true)
      ((increList chosen (w + 1)).map feature) = (cacheList chosen (w + 1)).map feature :=
  (map_maskAssign feature _ _ _).symm

/-- With edge features the worker's caches are those of the block's window. -/
theorem cacheAt_hasEf (small : input.right 0 < threshold) (hasEf : input.hasEf = true)
    (nodeFeature : Nat → α) (edgeFeature : Nat → β) {block : Nat}
    (bound : block < input.blockNum) :
    input.cacheAt nodeFeature edgeFeature block = some
      { nodeFeat := (cacheList input.cacheNid (input.windowOf block)).map nodeFeature
        edgeFeat := some ((cacheList input.cacheEid (input.windowOf block)).map edgeFeature)
        nodeMap := cacheList input.cacheNid (input.windowOf block)
        edgeMap := some (cacheList input.cacheEid (input.windowOf block)) } := by
  obtain ⟨node, edge⟩ := genPartStream_planned small (by omega : 0 < input.blockNum)
  have edge := edge hasEf
  induction block with
  | zero =>
      obtain ⟨nids, -, nodeMap⟩ := node.opened 0 bound (Or.inl rfl)
      obtain ⟨eids, -, edgeMap⟩ := edge.opened 0 bound (Or.inl rfl)
      rw [windowOf_zero small] at nids nodeMap eids edgeMap ⊢
      simp [PlanInput.cacheAt, Cache.cacheAt, initBucketCache, hasEf, nids, nodeMap, eids, edgeMap,
        increList, cacheList]
  | succ block ih =>
      have before := ih (by omega)
      rw [PlanInput.cacheAt] at before
      rw [PlanInput.cacheAt, Cache.cacheAt, before]
      rcases input.windowOf_succ block with ⟨opens, next⟩ | ⟨stays, next⟩
      · obtain ⟨nids, nidMask, nodeMap⟩ := node.opened _ bound opens
        obtain ⟨eids, eidMask, edgeMap⟩ := edge.opened _ bound opens
        rw [next] at nids nidMask nodeMap eids eidMask edgeMap ⊢
        simp [refreshCache, nids, nidMask, nodeMap, eids, eidMask, edgeMap, increMask,
          map_cacheList_succ]
      · have silent := (edge.silent _ (Or.inr stays)).1
        simp [refreshCache, silent, next]

/-- Without edge features the worker keeps the first window's caches. -/
theorem cacheAt_noEf (small : input.right 0 < threshold) (noEf : input.hasEf = false)
    (nodeFeature : Nat → α) (edgeFeature : Nat → β) {block : Nat}
    (bound : block < input.blockNum) :
    input.cacheAt nodeFeature edgeFeature block = some
      { nodeFeat := (cacheList input.cacheNid 0).map nodeFeature
        edgeFeat := none
        nodeMap := cacheList input.cacheNid 0
        edgeMap := none } := by
  obtain ⟨node, -⟩ := genPartStream_planned small (by omega : 0 < input.blockNum)
  have edge := genPartStream_edge noEf
  induction block with
  | zero =>
      obtain ⟨nids, -, nodeMap⟩ := node.opened 0 bound (Or.inl rfl)
      rw [windowOf_zero small] at nids nodeMap
      simp [PlanInput.cacheAt, Cache.cacheAt, initBucketCache, noEf, nids, nodeMap, edge,
        Side.initial, increList, cacheList]
  | succ block ih =>
      have before := ih (by omega)
      rw [PlanInput.cacheAt] at before
      rw [PlanInput.cacheAt, Cache.cacheAt, before]
      simp [refreshCache, edge, Side.initial]

/-! ## When the node cache is the window's -/

/-- Switching to as many ids leaves a list of exactly these ids. -/
theorem switchList_perm {old chosen : List Nat} (oldDistinct : old.Nodup)
    (distinct : chosen.Nodup) (sized : chosen.length = old.length) :
    (switchList old chosen).Perm chosen := by
  have common : (old.filter fun x => decide (x ∈ chosen)).Perm
      (chosen.filter fun x => decide (x ∈ old)) := by
    rw [List.perm_ext_iff_of_nodup (oldDistinct.filter _) (distinct.filter _)]
    intro x
    simp [and_comm]
  have oldSplit := (List.filter_append_perm (fun x => decide (x ∈ chosen)) old).length_eq
  have split := List.filter_append_perm (fun x => decide (x ∈ old)) chosen
  have splitLength := split.length_eq
  have commonLength := common.length_eq
  rw [List.length_append] at oldSplit splitLength
  have written : maskSelect (isin chosen old true) chosen =
      chosen.filter fun x => !decide (x ∈ old) := by
    rw [maskSelect_isin]
    simp
  have kept : maskSelect ((isin old chosen true).map (!·)) old =
      old.filter fun x => decide (x ∈ chosen) := by
    unfold isin
    rw [List.map_map, maskSelect_map_self]
    simp [Function.comp_def]
  have enough : (maskSelect (isin chosen old true) chosen).length =
      (maskSelect (isin old chosen true) old).length := by
    rw [written, maskSelect_isin]
    simp only [Bool.bne_true]
    omega
  refine (maskAssign_perm (by simp [isin]) enough).trans ?_
  rw [kept, written]
  exact (common.append_right _).trans split

/-- Switching to the ids that are there already changes nothing. -/
theorem switchList_same {old chosen : List Nat} (same : ∀ id, id ∈ chosen ↔ id ∈ old) :
    switchList old chosen = old := by
  have none_ : maskSelect (isin chosen old true) chosen = [] := by
    rw [maskSelect_isin, List.filter_eq_nil_iff]
    intro x member
    simp [(same x).mp member]
  rw [switchList, none_, maskAssign_nil]

/-- A cache list holds exactly the ids chosen for its window. -/
theorem cacheList_perm {chosen : Nat → List Nat} (distinct : ∀ w, (chosen w).Nodup)
    (sized : ∀ w, (chosen w).length = (chosen 0).length) (w : Nat) :
    (cacheList chosen w).Perm (chosen w) := by
  induction w with
  | zero => exact List.Perm.refl _
  | succ w ih =>
      refine switchList_perm (ih.nodup_iff.mpr (distinct w)) (distinct (w + 1)) ?_
      rw [ih.length_eq, sized w, sized (w + 1)]

/-- The lists stay the first one exactly while the same ids are chosen. -/
theorem cacheList_eq_first {chosen : Nat → List Nat} (distinct : ∀ w, (chosen w).Nodup)
    (sized : ∀ w, (chosen w).length = (chosen 0).length) (last : Nat) :
    (∀ w ≤ last, cacheList chosen w = chosen 0) ↔
      ∀ w ≤ last, ∀ id, id ∈ chosen w ↔ id ∈ chosen 0 := by
  constructor
  · intro constant w bound id
    rw [← (cacheList_perm distinct sized w).mem_iff, constant w bound]
  · intro same w bound
    induction w with
    | zero => rfl
    | succ w ih =>
        have before := ih (by omega)
        have chosenSame : ∀ id, id ∈ chosen (w + 1) ↔ id ∈ cacheList chosen w := by
          intro id
          rw [before]
          exact same (w + 1) bound id
        rw [cacheList, switchList_same chosenSame, before]

/-- Every window up to a block's has a block. -/
theorem exists_block (small : input.right 0 < threshold) {block w : Nat}
    (bound : w ≤ input.windowOf block) : ∃ first ≤ block, input.windowOf first = w := by
  induction block with
  | zero =>
      rw [windowOf_zero small] at bound
      exact ⟨0, Nat.le_refl _, by rw [windowOf_zero small]; omega⟩
  | succ block ih =>
      by_cases own : w = input.windowOf (block + 1)
      · exact ⟨block + 1, Nat.le_refl _, own.symm⟩
      · have earlier : w ≤ input.windowOf block := by
          rcases input.windowOf_succ block with ⟨-, next⟩ | ⟨-, next⟩ <;> omega
        obtain ⟨first, before, window⟩ := ih earlier
        exact ⟨first, by omega, window⟩

theorem windowOf_mono {block later : Nat} (order : block ≤ later) :
    input.windowOf block ≤ input.windowOf later := by
  induction later, order using Nat.le_induction with
  | base => exact Nat.le_refl _
  | succ later _ ih =>
      rcases input.windowOf_succ later with ⟨-, next⟩ | ⟨-, next⟩ <;> omega

/-- With edge features every block is decoded with its own window's caches. -/
theorem synchronisedAt_hasEf (small : input.right 0 < threshold) (hasEf : input.hasEf = true)
    (nodeFeature : Nat → α) (edgeFeature : Nat → β) {block : Nat}
    (bound : block < input.blockNum) : input.SynchronisedAt nodeFeature edgeFeature block := by
  obtain ⟨node, edge⟩ := genPartStream_planned small (by omega : 0 < input.blockNum)
  refine ⟨_, cacheAt_hasEf small hasEf nodeFeature edgeFeature bound,
    ⟨_, node.plannedWith block bound, ?_⟩, fun _ =>
      ⟨_, _, (edge hasEf).plannedWith block bound, rfl, ?_⟩⟩
  · intro s id slot
    simp [slot]
  · intro s id slot
    simp [slot]

/-- Without edge features a block is decoded right, for every feature table, just
when its cache list is the first one. -/
theorem synchronisedAt_noEf [Nontrivial α] (small : input.right 0 < threshold)
    (noEf : input.hasEf = false) (distinct : ∀ w, (input.cacheNid w).Nodup)
    (sized : ∀ w, (input.cacheNid w).length = (input.cacheNid 0).length)
    (edgeFeature : Nat → β) {block : Nat} (bound : block < input.blockNum) :
    (∀ nodeFeature : Nat → α, input.SynchronisedAt nodeFeature edgeFeature block) ↔
      cacheList input.cacheNid (input.windowOf block) = input.cacheNid 0 := by
  obtain ⟨node, -⟩ := genPartStream_planned small (by omega : 0 < input.blockNum)
  constructor
  · intro synchronised
    obtain ⟨a, b, different⟩ := exists_pair_ne α
    have lengths : (cacheList input.cacheNid (input.windowOf block)).length =
        (input.cacheNid 0).length := by
      rw [(cacheList_perm distinct sized _).length_eq, sized]
    apply List.ext_getElem lengths
    intro s sBound firstBound
    by_contra other
    let mark : Nat → α := fun id => if id = (input.cacheNid 0)[s] then a else b
    obtain ⟨cache, at_, ⟨nids, planned, slots⟩, -⟩ := synchronised mark
    rw [cacheAt_noEf small noEf mark edgeFeature bound] at at_
    obtain rfl := Option.some.inj at_
    rw [node.plannedWith block bound] at planned
    obtain rfl := Option.some.inj planned
    have slot := slots s _ (List.getElem?_eq_getElem sBound)
    simp [cacheList, firstBound, mark, other, different] at slot
  · intro same nodeFeature
    refine ⟨_, cacheAt_noEf small noEf nodeFeature edgeFeature bound,
      ⟨_, node.plannedWith block bound, ?_⟩, fun hasEf => ?_⟩
    · rw [same]
      intro s id slot
      simp [cacheList, slot]
    · rw [noEf] at hasEf
      exact absurd hasEf (by simp)

/-- Every block of a run up to `last` is decoded with the cache list it was
planned with, whatever the features are, exactly if the dataset has edge
features or every window that is reached chooses the ids of the first one. -/
theorem bucketCache_synchronised_iff [Nontrivial α] [Nonempty β]
    (small : input.right 0 < threshold)
    (distinct : ∀ w, (input.cacheNid w).Nodup)
    (sized : ∀ w, (input.cacheNid w).length = (input.cacheNid 0).length) {last : Nat}
    (bound : last < input.blockNum) :
    (∀ (nodeFeature : Nat → α) (edgeFeature : Nat → β), ∀ block, 0 < block → block ≤ last →
      input.SynchronisedAt nodeFeature edgeFeature block) ↔
      input.hasEf = true ∨ ∀ block, 0 < block → block ≤ last → ∀ id,
        id ∈ input.cacheNid (input.windowOf block) ↔ id ∈ input.cacheNid 0 := by
  have lists := cacheList_eq_first distinct sized (input.windowOf last)
  constructor
  · intro synchronised
    by_cases hasEf : input.hasEf = true
    · exact Or.inl hasEf
    · have noEf : input.hasEf = false := by simpa using hasEf
      obtain ⟨edgeFeature⟩ : Nonempty (Nat → β) := inferInstance
      have constant : ∀ w ≤ input.windowOf last, cacheList input.cacheNid w =
          input.cacheNid 0 := by
        intro w reached
        obtain ⟨first, before, rfl⟩ := exists_block small reached
        rcases Nat.eq_zero_or_pos first with rfl | positive
        · rw [windowOf_zero small]
          rfl
        · exact (synchronisedAt_noEf small noEf distinct sized edgeFeature (by omega)).mp
            fun nodeFeature => synchronised nodeFeature edgeFeature first positive before
      exact Or.inr fun block _ before => lists.mp constant _ (windowOf_mono before)
  · rintro (hasEf | same) nodeFeature edgeFeature block positive before
    · exact synchronisedAt_hasEf small hasEf nodeFeature edgeFeature (by omega)
    · by_cases hasEf : input.hasEf = true
      · exact synchronisedAt_hasEf small hasEf nodeFeature edgeFeature (by omega)
      · have noEf : input.hasEf = false := by simpa using hasEf
        have constant := lists.mpr (by
          intro w reached
          obtain ⟨first, early, rfl⟩ := exists_block small reached
          rcases Nat.eq_zero_or_pos first with rfl | later
          · simp [windowOf_zero small]
          · exact same first later early)
        exact (synchronisedAt_noEf small noEf distinct sized edgeFeature (by omega)).mpr
          (constant _ (windowOf_mono before)) nodeFeature

/-- Two windows that choose the same node. -/
theorem bucketCache_synchronised_same_choice :
    PlanInput.SynchronisedAt
      ⟨false, 60000000, 120000000, fun block => [block], fun _ => [], fun _ => [0], fun _ => []⟩
      (fun id => id + 1) (fun id => id) 1 :=
  (@bucketCache_synchronised_iff Nat Nat _ _ _ (by decide) (by simp) (by simp) 1
    (by decide)).mpr (Or.inr (by simp)) _ _ 1 (by decide) (by decide)

/-- Without edge features the second window's choice never reaches the worker. -/
theorem bucketCache_not_refreshed :
    ¬ PlanInput.SynchronisedAt
      ⟨false, 60000000, 120000000, fun block => [block], fun _ => [], fun w => [w], fun _ => []⟩
      (fun id => id) (fun id => id) 1 := by
  rintro ⟨cache, at_, ⟨nids, planned, slots⟩, -⟩
  rw [cacheAt_noEf (by decide) rfl _ _ (by decide)] at at_
  obtain rfl := Option.some.inj at_
  have list : nids = [1] := (Option.some.inj planned).symm
  have slot := slots 0 1 (by rw [list]; rfl)
  exact absurd slot (by decide)

end PlanInput

end Dolphin.Cache
