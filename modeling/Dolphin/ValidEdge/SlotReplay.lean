import Mathlib.Data.List.Induction
import Dolphin.ValidEdge.SlotInvariant
import Dolphin.ValidEdge.SlotSearches

/-!
# Runs of the allocator and their replay

For every history of blocks and expired edges the allocator's slots are sound,
and replaying its files puts the feature of every live edge where `get_ef_valid`
reads it.
-/

namespace Dolphin.ValidEdge

open Dolphin.Alloc Dolphin.Graph Dolphin.Tensor

/-! ## The run refines the pool -/

/-- What holds between two blocks: the pool behind the run, and that the next
block looks up the edges that expired last, unless it is the first. -/
structure RunInvariant (indptr : List Nat) (batchSize : Nat) (blocks : List (Nat × List Nat))
    (run : ExpireRun) (pool : SlotPool Nat) (last : List Nat) : Prop where
  represents : Represents run pool (expiredBy blocks) last
  endEid : run.state.endEid = edgesOf blocks
  lookup : run.state.expEids = some last ∨
    blocks = [] ∧ run = ⟨.initial (maxEdgeNum indptr batchSize), []⟩ ∧
      pool = SlotPool.empty (slotOf [])

variable {indptr : List Nat} {batchSize : Nat}

theorem RunInvariant.initial : RunInvariant indptr batchSize []
    ⟨.initial (maxEdgeNum indptr batchSize), []⟩ (SlotPool.empty (slotOf [])) [] where
  represents := Represents.initial _
  endEid := rfl
  lookup := Or.inr ⟨rfl, rfl, rfl⟩

/-- The next block's allocation, whether or not it is the first one. -/
theorem RunInvariant.allocate_block {blocks : List (Nat × List Nat)} {run : ExpireRun}
    {pool : SlotPool Nat} {last : List Nat}
    (invariant : RunInvariant indptr batchSize blocks run pool last)
    (fits : edgesOf blocks ≤ unused) (searchable : Searchable run.state) {count : Nat}
    (sized : count ≤ batchSize) :
    ∃ result after, allocate run.state count = some result ∧
      pool.Assigns (List.range' run.state.endEid count) after ∧
      Represents ⟨result.2, run.files ++ [result.1]⟩ after (expiredBy blocks) [] := by
  rcases invariant.lookup with expEids | ⟨rfl, rfl, rfl⟩
  · rw [← invariant.endEid] at fits
    obtain ⟨after, assigns, represents⟩ := invariant.represents.allocate_next count
    refine ⟨_, after, ?_, assigns, represents⟩
    rw [allocate, expEids]
    exact congrArg (Option.map _) (invariant.represents.table1 expEids fits searchable)
  · obtain ⟨after, assigns, represents⟩ :=
      @Represents.allocate_first (maxEdgeNum indptr batchSize) count (by unfold maxEdgeNum; omega)
    exact ⟨_, after, rfl, assigns, represents⟩

/-- One whole turn of the loop. -/
theorem RunInvariant.block {done : List (Nat × List Nat)} {run : ExpireRun} {count : Nat}
    {expEids : List Nat} {pool after : SlotPool Nat} {last : List Nat}
    {result : EdgeIncre × AllocState}
    (invariant : RunInvariant indptr batchSize done run pool last)
    (history : History (edgesOf done) (expiredBy done) [(count, expEids)])
    (allocated : allocate run.state count = some result)
    (represents : Represents ⟨result.2, run.files ++ [result.1]⟩ after (expiredBy done) []) :
    RunInvariant indptr batchSize (done ++ [(count, expEids)]) (run.write expEids result)
      (after.release fun e => decide (e ∈ expEids)) expEids := by
  obtain ⟨-, distinct, bounded, -⟩ := history
  obtain ⟨endEid, -, -⟩ := allocate_spec allocated
  rw [invariant.endEid] at endEid
  have live : ∀ e ∈ expEids, e ∈ after.live := by
    intro e member
    rw [represents.live, endEid]
    exact bounded e member
  have expired : expiredBy (done ++ [(count, expEids)]) = expiredBy done ++ expEids := by
    simp [expiredBy]
  refine ⟨?_, ?_, Or.inl rfl⟩
  · rw [expired]
    exact represents.expire distinct live
  · simpa [edgesOf, ExpireRun.write] using endEid

/-- When all searches stay in their tables every prefix of the blocks is allocated. -/
theorem genExpire_invariant {blocks : List (Nat × List Nat)} (history : History 0 [] blocks)
    (sized : ∀ block ∈ blocks, block.1 ≤ batchSize) (fits : edgesOf blocks ≤ unused)
    (searchable : SearchableRun indptr batchSize blocks) {done rest : List (Nat × List Nat)}
    (split : blocks = done ++ rest) :
    ∃ run pool last, genExpire indptr batchSize done = some run ∧
      RunInvariant indptr batchSize done run pool last := by
  induction done using List.reverseRecOn generalizing rest with
  | nil => exact ⟨_, _, [], rfl, RunInvariant.initial⟩
  | append_singleton done block ih =>
      have regroup : blocks = done ++ block :: rest := by simpa using split
      obtain ⟨run, pool, last, ran, invariant⟩ := ih regroup
      have total : edgesOf done ≤ edgesOf blocks := by simp [regroup, edgesOf]
      obtain ⟨result, after, allocated, -, represents⟩ :=
        invariant.allocate_block (total.trans fits) (searchable done block rest regroup run ran)
          (sized block (by simp [regroup]))
      refine ⟨_, _, block.2, ?_, invariant.block (history.block regroup) allocated represents⟩
      rw [genExpire_append, ran, Option.bind_some, ExpireRun.block, allocated, Option.map_some]

/-- The slots in the file of an allocation are those of the block's edges. -/
theorem Represents.file_slots {run : ExpireRun} {after : SlotPool Nat} {expired : List Nat}
    {count : Nat} {result : EdgeIncre × AllocState}
    (ended : (run.files.flatMap EdgeIncre.replaceIdx).length = run.state.endEid)
    (allocated : allocate run.state count = some result)
    (represents : Represents ⟨result.2, run.files ++ [result.1]⟩ after expired []) :
    (List.range' run.state.endEid count).map after.slot = result.1.replaceIdx := by
  have counted : result.1.replaceIdx.length = count := by
    have total := represents.count
    rw [List.flatMap_append, List.length_append, ended, (allocate_spec allocated).1] at total
    simpa using total
  have own := map_slotOf_append run.files result.1
  rwa [ended, counted, ← represents.slot] at own

/-! ## Replaying the files -/

variable {α : Type*} [Inhabited α]

/-- The online tensors after the files of a run: `valid_map` has every edge's
slot, and the slot of every live edge holds the edge's feature. -/
structure Replayed (run : ExpireRun) (pool : SlotPool Nat) (edgeFeatures : List α)
    (maxValidNum edgeNum : Nat) (valid : ValidEdges α) : Prop where
  slots : ∀ e < run.state.endEid, valid.validMap[e]? = some (slotOf run.files e)
  rows : pool.Holds valid.validEf fun e => edgeFeatures.getD e default
  mapLength : valid.validMap.length = edgeNum
  efLength : valid.validEf.length = maxValidNum

/-- `update_valid_edge` with the file of the next allocation. -/
theorem Replayed.update {run : ExpireRun} {pool after : SlotPool Nat} {edgeFeatures : List α}
    {maxValidNum edgeNum count : Nat} {valid : ValidEdges α} {expired : List Nat}
    {result : EdgeIncre × AllocState}
    (replayed : Replayed run pool edgeFeatures maxValidNum edgeNum valid)
    (assigns : pool.Assigns (List.range' run.state.endEid count) after)
    (ended : (run.files.flatMap EdgeIncre.replaceIdx).length = run.state.endEid)
    (allocated : allocate run.state count = some result)
    (represents : Represents ⟨result.2, run.files ++ [result.1]⟩ after expired [])
    {files : List EdgeIncre} {blockNum : Nat} (file : files[blockNum]? = some result.1)
    (room : after.size ≤ maxValidNum) (edges : run.state.endEid + count ≤ edgeNum)
    (features : run.state.endEid + count ≤ edgeFeatures.length) :
    ∃ next, updateValidEdge files edgeFeatures valid blockNum = some next ∧
      Replayed ⟨result.2, run.files ++ [result.1]⟩ after edgeFeatures maxValidNum edgeNum
        next := by
  obtain ⟨endEid, bound, -⟩ := allocate_spec allocated
  have slots := represents.file_slots ended allocated
  have values : gather edgeFeatures (List.range' run.state.endEid count) =
      (List.range' run.state.endEid count).map fun e => edgeFeatures.getD e default := rfl
  have new : ∀ e ∈ List.range' run.state.endEid count, e ∈ after.live := by
    intro e member
    rw [assigns.live]
    exact List.mem_append_right _ member
  unfold updateValidEdge
  rw [file]
  simp only [bound, Nat.add_sub_cancel_left]
  rw [if_pos ⟨fun e member => by
      rw [List.mem_range'_1] at member
      rw [replayed.mapLength]
      omega, fun s member => by
      rw [← slots, List.mem_map] at member
      obtain ⟨e, occurs, rfl⟩ := member
      have small := after.slot_lt (new e occurs)
      rw [replayed.efLength]
      omega⟩]
  refine ⟨_, rfl, ⟨?_, ?_, by simp [replayed.mapLength], by simp [replayed.efLength]⟩⟩
  · intro e before
    simp only [endEid] at before
    by_cases old : e < run.state.endEid
    · have untouched : e ∉ List.range' run.state.endEid count := by
        rw [List.mem_range'_1]
        omega
      have kept := slotOf_append (by rw [ended]; exact old) result.1
      simp only
      rw [indexAssign_other untouched, replayed.slots e old, kept]
    · have member : e ∈ List.range' run.state.endEid count := List.mem_range'_1.mpr (by omega)
      have room : e < valid.validMap.length := by
        rw [replayed.mapLength]
        omega
      have distinct : ((List.range' run.state.endEid count).map id).Nodup := by
        rw [List.map_id]
        exact List.nodup_range'
      have written := indexAssign_column after.slot distinct member room
      rwa [List.map_id, slots, represents.slot] at written
  · change after.Holds (indexAssign valid.validEf result.1.replaceIdx
      (gather edgeFeatures (List.range' run.state.endEid count))) _
    rw [values, ← slots]
    refine replayed.rows.assign assigns fun e member => ?_
    rw [replayed.efLength]
    exact Nat.lt_of_lt_of_le (after.slot_lt (new e member)) room

/-! ## Whole histories -/

/-- A run goes on: its files stay, one more for each block, and the number of slots does
not shrink. -/
theorem foldlM_block {blocks : List (Nat × List Nat)} {start final : ExpireRun}
    (ran : blocks.foldlM (fun run block => run.block block.1 block.2) start = some final) :
    final.files.length = start.files.length + blocks.length ∧ start.files <+: final.files ∧
      start.state.endPtr ≤ final.state.endPtr := by
  induction blocks generalizing start with
  | nil =>
      obtain rfl : start = final := Option.some.inj ran
      exact ⟨rfl, List.prefix_rfl, Nat.le_refl _⟩
  | cons block blocks ih =>
      rw [List.foldlM_cons] at ran
      obtain ⟨next, turn, rest⟩ := Option.bind_eq_some_iff.mp ran
      obtain ⟨result, allocated, rfl⟩ := Option.map_eq_some_iff.mp turn
      obtain ⟨length, extends_, grown⟩ := ih rest
      refine ⟨?_, (List.prefix_append _ _).trans extends_,
        (allocate_spec allocated).2.2.trans grown⟩
      rw [length, ExpireRun.write, List.length_append, List.length_singleton, List.length_cons]
      omega

/-- The files of some blocks stay when more blocks follow. -/
theorem genExpire_files {done rest : List (Nat × List Nat)} {run final : ExpireRun}
    (ran : genExpire indptr batchSize done = some run)
    (ended : genExpire indptr batchSize (done ++ rest) = some final) :
    run.files.length = done.length ∧ run.files <+: final.files ∧
      run.state.endPtr ≤ final.state.endPtr := by
  rw [genExpire, List.foldlM_append] at ended
  obtain ⟨middle, first, later⟩ := Option.bind_eq_some_iff.mp ended
  obtain rfl := Option.some.inj (ran.symm.trans first)
  obtain ⟨length, -, -⟩ := foldlM_block first
  obtain ⟨-, extends_, grown⟩ := foldlM_block later
  exact ⟨by simpa using length, extends_, grown⟩

/-- The file of a block is written by the allocation behind the blocks before it. -/
theorem genExpire_file {blocks done rest : List (Nat × List Nat)} {count : Nat}
    {expEids : List Nat} (split : blocks = done ++ (count, expEids) :: rest)
    {run final : ExpireRun} {result : EdgeIncre × AllocState}
    (ran : genExpire indptr batchSize done = some run)
    (allocated : allocate run.state count = some result)
    (ended : genExpire indptr batchSize blocks = some final) :
    final.files[done.length]? = some result.1 ∧ result.2.endPtr ≤ final.state.endPtr := by
  have regroup : blocks = (done ++ [(count, expEids)]) ++ rest := by simp [split]
  have next : genExpire indptr batchSize (done ++ [(count, expEids)]) =
      some (run.write expEids result) := by
    rw [genExpire_append, ran, Option.bind_some, ExpireRun.block, allocated, Option.map_some]
  have length : run.files.length = done.length := by
    have whole : genExpire indptr batchSize (done ++ []) = some run := by
      rwa [List.append_nil]
    exact (genExpire_files ran whole).1
  rw [regroup] at ended
  obtain ⟨-, ⟨tail, whole⟩, grown⟩ := genExpire_files next ended
  refine ⟨?_, grown⟩
  rw [← whole]
  simp [ExpireRun.write, ← length]

/-- What holds after the allocation of the block behind `done`, offline and on
the tensors that have replayed the files so far. -/
structure AllocatedAfter (done : List (Nat × List Nat)) (run final : ExpireRun)
    (result : EdgeIncre × AllocState) (edgeFeatures : List α) (edgeNum : Nat)
    (after : SlotPool Nat) (valid : ValidEdges α) : Prop where
  represents : Represents ⟨result.2, run.files ++ [result.1]⟩ after (expiredBy done) []
  room : after.size ≤ final.state.endPtr
  replay : ValidEdge.replay final.files edgeFeatures final.state.endPtr edgeNum
    (done.length + 1) = some valid
  replayed : Replayed ⟨result.2, run.files ++ [result.1]⟩ after edgeFeatures final.state.endPtr
    edgeNum valid

theorem replay_succ (files : List EdgeIncre) (edgeFeatures : List α)
    (maxValidNum edgeNum count : Nat) :
    replay files edgeFeatures maxValidNum edgeNum (count + 1) =
      (replay files edgeFeatures maxValidNum edgeNum count).bind fun valid =>
        updateValidEdge files edgeFeatures valid count := by
  unfold replay
  rw [List.range_succ, List.foldlM_append]
  simp [bind]

section Histories

variable {blocks : List (Nat × List Nat)} {final : ExpireRun} {edgeFeatures : List α}
  {edgeNum : Nat}

/-- The block after `done` is allocated, and its file replayed. -/
theorem RunInvariant.allocated {done rest : List (Nat × List Nat)} {count : Nat}
    {expEids : List Nat} (split : blocks = done ++ (count, expEids) :: rest)
    (sized : count ≤ batchSize) (fits : edgesOf blocks ≤ unused)
    (edges : edgesOf blocks ≤ edgeNum) (features : edgesOf blocks ≤ edgeFeatures.length)
    {run : ExpireRun} {pool : SlotPool Nat} {last : List Nat}
    (ran : genExpire indptr batchSize done = some run)
    (ended : genExpire indptr batchSize blocks = some final)
    (invariant : RunInvariant indptr batchSize done run pool last)
    (searchable : Searchable run.state) {valid : ValidEdges α}
    (replay : replay final.files edgeFeatures final.state.endPtr edgeNum done.length = some valid)
    (replayed : Replayed run pool edgeFeatures final.state.endPtr edgeNum valid) :
    ∃ result after next, allocate run.state count = some result ∧
      AllocatedAfter done run final result edgeFeatures edgeNum after next := by
  have total : edgesOf blocks = run.state.endEid + (count + edgesOf rest) := by
    rw [invariant.endEid]
    simp [split, edgesOf]
  obtain ⟨result, after, allocated, assigns, represents⟩ := invariant.allocate_block
    (show edgesOf done ≤ unused by rw [← invariant.endEid]; omega) searchable sized
  obtain ⟨file, grown⟩ := genExpire_file split ran allocated ended
  have room : after.size ≤ final.state.endPtr := by
    rw [represents.size]
    exact grown
  obtain ⟨next, update, after_⟩ := replayed.update assigns invariant.represents.count allocated
    represents file room (by omega) (by omega)
  refine ⟨result, after, next, allocated, represents, room, ?_, after_⟩
  rw [replay_succ, replay, Option.bind_some, update]

/-- Every prefix of a history keeps the allocator and the replay of the run's
files tied to one pool. -/
theorem genExpire_replayed (history : History 0 [] blocks)
    (sized : ∀ block ∈ blocks, block.1 ≤ batchSize) (fits : edgesOf blocks ≤ unused)
    (searchable : SearchableRun indptr batchSize blocks)
    (edges : edgesOf blocks ≤ edgeNum) (features : edgesOf blocks ≤ edgeFeatures.length)
    (ended : genExpire indptr batchSize blocks = some final) {done rest : List (Nat × List Nat)}
    (split : blocks = done ++ rest) :
    ∃ run pool last valid, genExpire indptr batchSize done = some run ∧
      RunInvariant indptr batchSize done run pool last ∧
      replay final.files edgeFeatures final.state.endPtr edgeNum done.length = some valid ∧
      Replayed run pool edgeFeatures final.state.endPtr edgeNum valid := by
  induction done using List.reverseRecOn generalizing rest with
  | nil =>
      refine ⟨_, _, [], _, rfl, RunInvariant.initial, rfl, ?_⟩
      exact ⟨by simp [AllocState.initial], SlotPool.Holds.empty _ _ _,
        by simp [ValidEdges.zeros], by simp [ValidEdges.zeros]⟩
  | append_singleton done block ih =>
      obtain ⟨count, expEids⟩ := block
      have regroup : blocks = done ++ (count, expEids) :: rest := by simpa using split
      obtain ⟨run, pool, last, valid, ran, invariant, replay, replayed⟩ := ih regroup
      obtain ⟨result, after, next, allocated, turn⟩ := invariant.allocated regroup
        (sized (count, expEids) (by simp [regroup])) fits edges features ran ended
        (searchable done _ rest regroup run ran) replay replayed
      refine ⟨_, _, expEids, next, ?_,
        invariant.block (history.block regroup) allocated turn.represents, ?_, ?_⟩
      · rw [genExpire_append, ran, Option.bind_some, ExpireRun.block, allocated, Option.map_some]
      · simpa using turn.replay
      · exact ⟨turn.replayed.slots, turn.replayed.rows.release _, turn.replayed.mapLength,
          turn.replayed.efLength⟩

end Histories

/-! ## The main result -/

/-- The slots nobody owns between two blocks: the spared ones and those of the
edges that expired in the last block. -/
def freeSlots (run : ExpireRun) : List Nat :=
  run.state.unexpireInd ++ (run.state.expEids.getD []).map (slotOf run.files)

/-- The edges that have a slot after some blocks. -/
def Live (blocks : List (Nat × List Nat)) (e : Nat) : Prop :=
  e < edgesOf blocks ∧ e ∉ expiredBy blocks

/-- The slots after a run are sound for the edges that are live. -/
structure SlotsSound (run : ExpireRun) (live : Nat → Prop) : Prop where
  distinct : ∀ e e', live e → live e' → slotOf run.files e = slotOf run.files e' → e = e'
  stored : ∀ e, live e → run.state.slotMap[slotOf run.files e]? = some e
  freeDistinct : (freeSlots run).Nodup
  disjoint : ∀ e, live e → slotOf run.files e ∉ freeSlots run
  exact : ∀ s, s < run.state.endPtr ↔ (∃ e, live e ∧ slotOf run.files e = s) ∨ s ∈ freeSlots run

theorem RunInvariant.sound {blocks : List (Nat × List Nat)} {run : ExpireRun}
    {pool : SlotPool Nat} {last : List Nat}
    (invariant : RunInvariant indptr batchSize blocks run pool last) :
    SlotsSound run (Live blocks) := by
  have represents := invariant.represents
  have live : ∀ e, Live blocks e ↔ e ∈ pool.live := by
    intro e
    rw [represents.live, invariant.endEid]
    rfl
  have free : pool.free.Perm (freeSlots run) := by
    rcases invariant.lookup with expEids | ⟨rfl, rfl, rfl⟩
    · rw [freeSlots, expEids]
      exact represents.free
    · exact List.Perm.refl _
  refine ⟨?_, ?_, free.nodup_iff.mp pool.free_nodup, ?_, ?_⟩
  · intro e e' eLive eLive' same
    rw [← represents.slot] at same
    exact pool.slot_injective ((live e).mp eLive) ((live e').mp eLive') same
  · intro e eLive
    exact represents.stored e (List.mem_append_left _ ((live e).mp eLive))
  · intro e eLive taken
    rw [← represents.slot] at taken
    exact pool.slot_notMem_free ((live e).mp eLive) (free.mem_iff.mpr taken)
  · intro s
    rw [← represents.size, pool.lt_size_iff, free.mem_iff, represents.slot]
    simp only [live]

/-- Every slot a file names is below the number of slots finally returned. -/
theorem AllocatedAfter.slots_lt {done : List (Nat × List Nat)} {run final : ExpireRun}
    {count : Nat} {result : EdgeIncre × AllocState} {edgeFeatures : List α} {edgeNum : Nat}
    {after pool : SlotPool Nat} {valid : ValidEdges α} {last : List Nat}
    (invariant : RunInvariant indptr batchSize done run pool last)
    (allocated : allocate run.state count = some result)
    (turn : AllocatedAfter done run final result edgeFeatures edgeNum after valid) {s : Nat}
    (member : s ∈ result.1.replaceIdx) : s < final.state.endPtr := by
  have before := invariant.represents
  rw [← turn.represents.file_slots before.count allocated, List.mem_map] at member
  obtain ⟨e, occurs, rfl⟩ := member
  rw [List.mem_range'_1] at occurs
  have live : e ∈ after.live := by
    rw [turn.represents.live]
    refine ⟨by simpa only [(allocate_spec allocated).1] using occurs.2, fun gone => ?_⟩
    have old := before.allocated e (List.mem_append_left _ gone)
    omega
  exact Nat.lt_of_lt_of_le (after.slot_lt live) turn.room

/-- After replaying a block, `get_ef_valid` reads the feature of a live edge. -/
theorem Replayed.getEfValid {run : ExpireRun} {pool : SlotPool Nat} {edgeFeatures : List α}
    {maxValidNum edgeNum : Nat} {valid : ValidEdges α} {expired : List Nat}
    (represents : Represents run pool expired [])
    (replayed : Replayed run pool edgeFeatures maxValidNum edgeNum valid) {eids : List Nat}
    (live : ∀ e ∈ eids, e ∈ pool.live) :
    getEfValid valid eids = eids.map fun e => edgeFeatures.getD e default := by
  unfold ValidEdge.getEfValid gather
  rw [List.map_map]
  apply List.map_congr_left
  intro e member
  have slot := replayed.slots e ((represents.live e).mp (live e member)).1
  have row := replayed.rows e (live e member)
  rw [represents.slot] at row
  simp only [Function.comp_apply, List.getD_eq_getElem?_getD, slot, Option.getD_some, row]

section Runs

variable {blocks : List (Nat × List Nat)} {final : ExpireRun} {edgeFeatures : List α}
  {edgeNum : Nat}

/-- The turn of a block: its allocation, and the replay up to its file. -/
theorem genExpire_turn (history : History 0 [] blocks)
    (sized : ∀ block ∈ blocks, block.1 ≤ batchSize) (fits : edgesOf blocks ≤ unused)
    (searchable : SearchableRun indptr batchSize blocks)
    (edges : edgesOf blocks ≤ edgeNum) (features : edgesOf blocks ≤ edgeFeatures.length)
    (ended : genExpire indptr batchSize blocks = some final) {done rest : List (Nat × List Nat)}
    {count : Nat} {expEids : List Nat} (split : blocks = done ++ (count, expEids) :: rest) :
    ∃ run pool last result after valid, RunInvariant indptr batchSize done run pool last ∧
      allocate run.state count = some result ∧ final.files[done.length]? = some result.1 ∧
      AllocatedAfter done run final result edgeFeatures edgeNum after valid := by
  obtain ⟨run, pool, last, valid, ran, invariant, replay, replayed⟩ :=
    genExpire_replayed history sized fits searchable edges features ended split
  obtain ⟨result, after, next, allocated, turn⟩ := invariant.allocated split
    (sized (count, expEids) (by simp [split])) fits edges features ran ended
    (searchable done _ rest split run ran) replay replayed
  exact ⟨run, pool, last, result, after, next, invariant, allocated,
    (genExpire_file split ran allocated ended).1, turn⟩

/-- Replaying the files up to a block gives `get_ef_valid` the features of the
edges live after the block's allocation. -/
theorem genExpire_reads (history : History 0 [] blocks)
    (sized : ∀ block ∈ blocks, block.1 ≤ batchSize) (fits : edgesOf blocks ≤ unused)
    (searchable : SearchableRun indptr batchSize blocks)
    (edges : edgesOf blocks ≤ edgeNum) (features : edgesOf blocks ≤ edgeFeatures.length)
    (ended : genExpire indptr batchSize blocks = some final) {done rest : List (Nat × List Nat)}
    {count : Nat} {expEids : List Nat} (split : blocks = done ++ (count, expEids) :: rest) :
    ∃ valid, replay final.files edgeFeatures final.state.endPtr edgeNum (done.length + 1) =
        some valid ∧
      ∀ eids, (∀ e ∈ eids, e < edgesOf done + count ∧ e ∉ expiredBy done) →
        getEfValid valid eids = eids.map fun e => edgeFeatures.getD e default := by
  obtain ⟨run, _, _, result, after, valid, invariant, allocated, -, turn⟩ :=
    genExpire_turn history sized fits searchable edges features ended split
  refine ⟨valid, turn.replay, fun eids live => ?_⟩
  refine turn.replayed.getEfValid turn.represents fun e member => ?_
  rw [turn.represents.live, (allocate_spec allocated).1, invariant.endEid]
  exact live e member

end Runs

/-- When before every block the searches stay in their tables, the run has slots for all
blocks: after any prefix of a history they are sound, every slot in a file is below the
size returned for `valid_ef`, and replaying the files up to a block gives `get_ef_valid`
the features of the edges live after its allocation. -/
theorem genExpire_slots_sound {blocks : List (Nat × List Nat)} (history : History 0 [] blocks)
    (sized : ∀ block ∈ blocks, block.1 ≤ batchSize) (fits : edgesOf blocks ≤ unused)
    (searchable : SearchableRun indptr batchSize blocks)
    {edgeFeatures : List α} {edgeNum : Nat} (edges : edgesOf blocks ≤ edgeNum)
    (features : edgesOf blocks ≤ edgeFeatures.length) :
    (∀ done rest, blocks = done ++ rest →
      ∃ run, genExpire indptr batchSize done = some run ∧ SlotsSound run (Live done)) ∧
    ∃ final, genExpire indptr batchSize blocks = some final ∧
      (∀ file ∈ final.files, ∀ s ∈ file.replaceIdx, s < final.state.endPtr) ∧
      ∀ done count expEids rest, blocks = done ++ (count, expEids) :: rest →
        ∃ valid, replay final.files edgeFeatures final.state.endPtr edgeNum (done.length + 1) =
            some valid ∧
          ∀ eids, (∀ e ∈ eids, e < edgesOf done + count ∧ e ∉ expiredBy done) →
            getEfValid valid eids = eids.map fun e => edgeFeatures.getD e default := by
  have prefixes : ∀ done rest, blocks = done ++ rest →
      ∃ run, genExpire indptr batchSize done = some run ∧ SlotsSound run (Live done) := by
    intro done rest split
    obtain ⟨run, _, _, ran, invariant⟩ := genExpire_invariant history sized fits searchable split
    exact ⟨run, ran, invariant.sound⟩
  obtain ⟨final, ended, -⟩ := prefixes blocks [] (List.append_nil _).symm
  refine ⟨prefixes, final, ended, ?_, fun done count expEids rest split =>
    genExpire_reads history sized fits searchable edges features ended split⟩
  intro file member s used
  obtain ⟨k, position⟩ := List.getElem?_of_mem member
  have bound : k < blocks.length := by
    have whole : genExpire indptr batchSize (blocks ++ []) = some final := by
      rwa [List.append_nil]
    rw [← (genExpire_files ended whole).1]
    exact (List.getElem?_eq_some_iff.mp position).1
  have split : blocks = blocks.take k ++ (blocks[k].1, blocks[k].2) :: blocks.drop (k + 1) := by
    simp
  obtain ⟨_, _, _, result, _, _, invariant, allocated, own, turn⟩ :=
    genExpire_turn history sized fits searchable edges features ended split
  rw [List.length_take, Nat.min_eq_left (Nat.le_of_lt bound), position] at own
  obtain rfl := Option.some.inj own
  exact turn.slots_lt invariant allocated used

/-- Four blocks that take all three branches: edge 3 gets a freed slot, edge 4 a
spared one, and edges 5 to 7 a freed one and two new ones. -/
theorem genExpire_slots_four_blocks :
    let blocks := [(3, [0, 1]), (1, []), (1, [2]), (3, [])]
    ∃ final, genExpire [0, 1] 3 blocks = some final ∧ SlotsSound final (Live blocks) ∧
      ∃ valid, replay final.files [0, 10, 20, 30, 40, 50, 60, 70] final.state.endPtr 8 4 =
          some valid ∧
        getEfValid valid [3, 4, 7] = [30, 40, 70] := by
  intro blocks
  obtain ⟨sound, final, ended, -, read⟩ := @genExpire_slots_sound [0, 1] 3 Nat _ blocks
    (by decide) (by decide) (by decide) (searchableRun_of_few (by decide) (by decide) (by decide))
    [0, 10, 20, 30, 40, 50, 60, 70] 8 (by decide) (by decide)
  obtain ⟨run, ran, own⟩ := sound blocks [] rfl
  obtain rfl := Option.some.inj (ran.symm.trans ended)
  obtain ⟨valid, replayed, values⟩ := read [(3, [0, 1]), (1, []), (1, [2])] 3 [] [] rfl
  exact ⟨run, ran, own, valid, replayed, values [3, 4, 7] (by decide)⟩

/-! ## A long map -/

/-- The variables after some blocks of which no edge has expired, with the edges that expire
then. -/
def contiguous (entries edges : Nat) (expEids : List Nat) : AllocState where
  endEid := edges
  endPtr := edges
  slotMap := List.range' 0 edges ++ List.replicate (entries - edges) unused
  expEids := some expEids
  unexpireInd := []

/-- A further block takes the next entries. -/
theorem allocate_contiguous {entries edges count : Nat} (positive : 0 < count)
    (room : edges + count ≤ entries) : ∃ file, allocate (contiguous entries edges []) count =
      some (file, contiguous entries (edges + count) []) := by
  have searched : SearchKernel.findIndices (sort []) (contiguous entries edges []).slotMap =
      some [] := by
    have indexed : SearchKernel.Indexed (sort ([] : List Nat))
        (contiguous entries edges []).slotMap :=
      SearchKernel.indexed_iff.mpr ⟨fun _ member => absurd member List.not_mem_nil,
        fun _ _ => SearchKernel.not_overflows_of_length (Nat.zero_le _)⟩
    obtain ⟨r, found, entries_⟩ := indexed
    rw [found, List.forall₂_nil_left_iff.mp entries_]
  have chosen : chooseSlots [] [] edges count = (List.range' edges count, [], 0) := by
    unfold chooseSlots
    rw [if_neg (by simp; omega), if_neg (by simp; omega)]
    simp
  have whole : growMap (contiguous entries edges []).slotMap (List.range' edges count) =
      (contiguous entries edges []).slotMap := by
    refine if_neg (Nat.not_le.mpr (maxOf_lt (fun s member => ?_) ?_))
    · have inside := (List.mem_range'_1.mp member).2
      simp only [contiguous, List.length_append, List.length_range', List.length_replicate]
      omega
    · simp only [contiguous, List.length_append, List.length_range', List.length_replicate]
      omega
  have written : indexAssign (contiguous entries edges []).slotMap (List.range' edges count)
      (List.range' edges count) = (contiguous entries (edges + count) []).slotMap := by
    have aligned : (List.range' edges count).length = count := List.length_range'
    have enough : count ≤ (List.replicate (entries - edges) unused).length := by
      rw [List.length_replicate]
      omega
    have behind := indexAssign_behind (List.range' 0 edges) aligned enough
    have joined : List.range' 0 edges ++ List.range' edges count = List.range' 0 (edges + count) := by
      rw [← List.range'_append_1, Nat.zero_add]
    rw [List.length_range', List.drop_replicate, ← List.append_assoc, joined,
      Nat.sub_sub] at behind
    exact behind
  refine ⟨⟨(edges, edges + count), List.range' edges count⟩, ?_⟩
  rw [allocate]
  change (SearchKernel.findIndices (sort []) (contiguous entries edges []).slotMap).map
    (allocateNext (contiguous entries edges []) count) = _
  rw [searched, Option.map_some, allocateNext]
  change some ((⟨(edges, edges + count), (chooseSlots [] [] edges count).1⟩ : EdgeIncre),
    ({ endEid := edges + count
       endPtr := edges + (count - (chooseSlots [] [] edges count).2.2)
       slotMap := indexAssign (growMap (contiguous entries edges []).slotMap
         (chooseSlots [] [] edges count).1) (chooseSlots [] [] edges count).1
           (List.range' edges count)
       expEids := some []
       unexpireInd := (chooseSlots [] [] edges count).2.1 } : AllocState)) = _
  rw [chosen, whole, written]
  rfl

/-- The map of many entries ends the search for an edge behind its middle. -/
theorem allocate_long {entries edges e count : Nat} (few : edges ≤ entries)
    (long : 3 * 2 ^ 29 ≤ entries) (int : entries ≤ 2 ^ 31) (middle : (entries - 1) / 2 < e)
    (own : (entries - 1) / 2 < edges) (fits : edges ≤ unused) :
    allocate (contiguous entries edges [e]) count = none := by
  have sorted : sort (contiguous entries edges [e]).slotMap =
      (contiguous entries edges [e]).slotMap := by
    refine (sort_perm _).eq_of_pairwise' (sort_pairwise _) (List.pairwise_append.mpr ⟨?_, ?_, ?_⟩)
    · exact List.pairwise_le_range' 1
    · exact List.pairwise_replicate.mpr (Or.inr (Nat.le_refl _))
    · intro first before last spare
      have bound := (List.mem_range'_1.mp before).2
      rw [List.eq_of_mem_replicate spare]
      omega
  have length : (contiguous entries edges [e]).slotMap.length = entries := by
    simp only [contiguous, List.length_append, List.length_range', List.length_replicate]
    omega
  have overflows : SearchKernel.Overflows (sort (contiguous entries edges [e]).slotMap) e := by
    rw [sorted]
    refine SearchKernel.overflows_of_long (length.symm ▸ long) (length.symm ▸ int) ?_
    have entry : (contiguous entries edges [e]).slotMap[(entries - 1) / 2]? =
        some ((entries - 1) / 2) := by
      change (List.range' 0 edges ++ _)[(entries - 1) / 2]? = _
      rw [List.getElem?_append_left (by rwa [List.length_range']), List.getElem?_range' own]
      simp
    rw [length, List.getD_eq_getElem?_getD, entry]
    exact middle
  rw [allocate]
  change (SearchKernel.findIndices (sort [e]) (contiguous entries edges [e]).slotMap).map _ = none
  rw [SearchKernel.findIndices_none (mem_sort.mpr (List.mem_singleton_self e)) overflows]
  rfl

theorem block_first {entries count : Nat} (expEids : List Nat) :
    ∃ files, ExpireRun.block ⟨.initial entries, []⟩ count expEids =
      some ⟨contiguous entries count expEids, files⟩ := by
  refine ⟨[⟨(0, 0 + count), List.range count⟩], ?_⟩
  rw [ExpireRun.block, allocate]
  simp only [AllocState.initial, Option.map_some, allocateFirst, ExpireRun.write, contiguous,
    List.drop_replicate, Nat.zero_add, List.nil_append]

theorem block_contiguous {entries edges count : Nat} (positive : 0 < count)
    (room : edges + count ≤ entries) (files : List EdgeIncre) (expEids : List Nat) :
    ∃ later, ExpireRun.block ⟨contiguous entries edges [], files⟩ count expEids =
      some ⟨contiguous entries (edges + count) expEids, later⟩ := by
  obtain ⟨file, allocated⟩ := allocate_contiguous positive room
  refine ⟨files ++ [file], ?_⟩
  rw [ExpireRun.block, allocated]
  rfl

/-- Two blocks without expired edges before, a third block gets no slots. -/
theorem genExpire_long {first second count e entries : Nat} (map : maxEdgeNum indptr batchSize = entries)
    (positive : 0 < second) (few : first + second ≤ entries) (long : 3 * 2 ^ 29 ≤ entries)
    (int : entries ≤ 2 ^ 31) (middle : (entries - 1) / 2 < e)
    (own : (entries - 1) / 2 < first + second) (fits : first + second ≤ unused) :
    genExpire indptr batchSize [(first, []), (second, [e]), (count, [])] = none := by
  obtain ⟨files, run1⟩ := @block_first entries first []
  obtain ⟨later, run2⟩ := block_contiguous positive few files [e]
  rw [genExpire, map]
  simp only [List.foldlM_cons, run1, Option.bind_eq_bind, Option.bind_some, run2]
  rw [ExpireRun.block, allocate_long few long int middle own fits]
  rfl

/-- After two blocks the map is long and its rear unused, and the search for the last edge
leaves it: the third block has no slots. -/
theorem longBlocks_not_allocated :
    let blocks := [(2 ^ 29, []), (2 ^ 29, [2 ^ 30 - 1]), (1, [])]
    History 0 [] blocks ∧ (∀ block ∈ blocks, block.1 ≤ 2 ^ 29) ∧ edgesOf blocks ≤ unused ∧
      genExpire [0, 2 ^ 30 + 1, 2 ^ 30 + 1] (2 ^ 29) blocks = none := by
  have entries : maxEdgeNum [0, 2 ^ 30 + 1, 2 ^ 30 + 1] (2 ^ 29) = 3 * 2 ^ 29 + 10 := by
    simp [maxEdgeNum, getMaxEdgeNum]
  exact ⟨by decide, by decide, by decide, genExpire_long entries (by decide) (by decide) (by decide)
    (by decide) (by decide) (by decide) (by decide)⟩

end Dolphin.ValidEdge
