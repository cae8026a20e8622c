import Dolphin.ValidEdge.Slots

/-!
# The allocator refines a pool of slots

`Represents` ties the variables of `gen_expire` to a slot pool whose keys are the
live edges. Each block's allocation is an `assign` of the pool and each expiry a
`release`, so the pool's permutation invariant carries over to every prefix of a
run. `Replayed` ties `valid_map` and `valid_ef` to the same pool.
-/

namespace Dolphin.ValidEdge

open Dolphin.Alloc Dolphin.Graph Dolphin.Semantics Dolphin.Tensor

/-- The pool behind a run: `expired` are the edges that have expired so far, and
`last` those whose slots `unexpire_ind` does not list yet. -/
structure Represents (run : ExpireRun) (pool : SlotPool Nat) (expired last : List Nat) : Prop where
  slot : pool.slot = slotOf run.files
  live : ∀ e, e ∈ pool.live ↔ e < run.state.endEid ∧ e ∉ expired
  free : pool.free.Perm (run.state.unexpireInd ++ last.map (slotOf run.files))
  size : pool.size = run.state.endPtr
  count : (run.files.flatMap EdgeIncre.replaceIdx).length = run.state.endEid
  allocated : ∀ e ∈ expired ++ last, e < run.state.endEid
  stored : ∀ e ∈ pool.live ++ last, run.state.slotMap[slotOf run.files e]? = some e
  owner : ∀ s e, run.state.slotMap[s]? = some e →
    e = unused ∨ e < run.state.endEid ∧ slotOf run.files e = s
  room : run.state.endPtr ≤ run.state.slotMap.length

/-- Later files do not change the slot of an edge that has one. -/
theorem slotOf_append {files : List EdgeIncre} {e : Nat}
    (old : e < (files.flatMap EdgeIncre.replaceIdx).length) (file : EdgeIncre) :
    slotOf (files ++ [file]) e = slotOf files e := by
  simp [slotOf, List.getD_eq_getElem?_getD, List.getElem?_append_left old]

/-- The slots of a block's edges are the block's `replace_idx`. -/
theorem map_slotOf_append (files : List EdgeIncre) (file : EdgeIncre) :
    (List.range' (files.flatMap EdgeIncre.replaceIdx).length file.replaceIdx.length).map
      (slotOf (files ++ [file])) = file.replaceIdx := by
  apply List.ext_getElem
  · simp
  · intro i _ bound
    simp [slotOf, List.getD_eq_getElem?_getD, bound]

theorem Represents.initial (maxEdgeNum : Nat) :
    Represents ⟨.initial maxEdgeNum, []⟩ (SlotPool.empty (slotOf [])) [] [] where
  slot := rfl
  live := by simp [SlotPool.empty, AllocState.initial]
  free := by simp [SlotPool.empty, AllocState.initial]
  size := rfl
  count := rfl
  allocated := by simp
  stored := by simp [SlotPool.empty]
  owner := by
    intro s e entry
    exact Or.inl (List.eq_of_mem_replicate (List.mem_of_getElem? entry))
  room := by simp [AllocState.initial]

/-- Giving a block of edges the slots `replaceIdx`. -/
theorem Represents.assign {run : ExpireRun} {pool : SlotPool Nat} {expired last : List Nat}
    (represents : Represents run pool expired last) {replaceIdx rest : List Nat}
    {grown : Nat} (rows : List Nat) (expEids : Option (List Nat))
    (supply : (replaceIdx ++ rest).Perm (pool.free ++ List.range' pool.size grown))
    (kept : ∀ s e : Nat, run.state.slotMap[s]? = some e → rows[s]? = some e)
    (added : ∀ s e : Nat, rows[s]? = some e → run.state.slotMap[s]? = some e ∨ e = unused)
    (room : pool.size + grown ≤ rows.length) :
    ∃ after, pool.Assigns (List.range' run.state.endEid replaceIdx.length) after ∧
      Represents
        { state :=
            { endEid := run.state.endEid + replaceIdx.length
              endPtr := run.state.endPtr + grown
              slotMap := indexAssign rows replaceIdx
                (List.range' run.state.endEid replaceIdx.length)
              expEids := expEids
              unexpireInd := rest }
          files := run.files ++
            [⟨(run.state.endEid, run.state.endEid + replaceIdx.length), replaceIdx⟩] }
        after expired [] := by
  let file : EdgeIncre := ⟨(run.state.endEid, run.state.endEid + replaceIdx.length), replaceIdx⟩
  have older : ∀ {e}, e < run.state.endEid →
      slotOf (run.files ++ [file]) e = slotOf run.files e :=
    fun before => slotOf_append (by rw [represents.count]; exact before) file
  have slots : (List.range' run.state.endEid replaceIdx.length).map
      (slotOf (run.files ++ [file])) = replaceIdx := by
    rw [← represents.count]
    exact map_slotOf_append run.files file
  have same : ∀ e ∈ pool.live, slotOf (run.files ++ [file]) e = pool.slot e := by
    intro e live
    rw [older ((represents.live e).mp live).1, represents.slot]
  have supplied : ((List.range' run.state.endEid replaceIdx.length).map
      (slotOf (run.files ++ [file])) ++ rest).Perm
      (pool.free ++ List.range' pool.size grown) := by
    rw [slots]
    exact supply
  have held : pool.Holds rows id := by
    intro e live
    rw [represents.slot]
    exact kept _ _ (represents.stored e (List.mem_append_left _ live))
  let after := pool.assign (slotOf (run.files ++ [file]))
    (List.range' run.state.endEid replaceIdx.length) rest grown same supplied
  have assigns : pool.Assigns (List.range' run.state.endEid replaceIdx.length) after :=
    ⟨_, _, _, _, _, rfl⟩
  have holds : after.Holds (indexAssign rows ((List.range' run.state.endEid
      replaceIdx.length).map (slotOf (run.files ++ [file]))) ((List.range' run.state.endEid
        replaceIdx.length).map id)) id :=
    held.assign assigns fun e member =>
      Nat.lt_of_lt_of_le (after.slot_lt (List.mem_append_right _ member)) room
  rw [slots, List.map_id] at holds
  have distinct : replaceIdx.Nodup :=
    (List.nodup_append.mp (supply.nodup_iff.mpr (pool.supply_nodup grown))).1
  have used : ∀ s ∈ replaceIdx, s < rows.length := by
    intro s member
    have free : s ∈ pool.free ++ List.range' pool.size grown :=
      supply.mem_iff.mp (List.mem_append_left _ member)
    have bound := (pool.exact_grown grown).mem_iff.mp (List.mem_append_right _ free)
    exact Nat.lt_of_lt_of_le (List.mem_range.mp bound) room
  refine ⟨after, assigns, ⟨rfl, ?_, ?_, ?_, ?_, ?_, ?_, ?_, ?_⟩⟩
  case refine_1 =>
    intro e
    have fresh : e ∈ expired → e < run.state.endEid :=
      fun gone => represents.allocated e (List.mem_append_left _ gone)
    change e ∈ pool.live ++ List.range' run.state.endEid replaceIdx.length ↔ _
    rw [List.mem_append, represents.live, List.mem_range'_1]
    constructor
    · rintro (⟨old, present⟩ | ⟨low, high⟩)
      · exact ⟨by simp only; omega, present⟩
      · exact ⟨high, fun gone => absurd (fresh gone) (by omega)⟩
    · rintro ⟨bound, present⟩
      by_cases old : e < run.state.endEid
      · exact Or.inl ⟨old, present⟩
      · exact Or.inr ⟨by omega, bound⟩
  case refine_2 => simp [after, SlotPool.assign]
  case refine_3 => simp [after, SlotPool.assign, represents.size]
  case refine_4 => simp [represents.count]
  case refine_5 =>
    intro e member
    have old := represents.allocated e (by simpa using Or.inl (by simpa using member))
    simp only
    omega
  case refine_6 =>
    intro e member
    exact holds e (by simpa using member)
  case refine_7 =>
    intro s e entry
    simp only at entry
    by_cases written : s ∈ replaceIdx
    · obtain ⟨k, index⟩ := List.getElem?_of_mem written
      have kBound : k < replaceIdx.length := (List.getElem?_eq_some_iff.mp index).1
      have value : (List.range' run.state.endEid replaceIdx.length)[k]? =
          some (run.state.endEid + k) := by simp [kBound]
      rw [indexAssign_own distinct index value (used s written)] at entry
      obtain rfl : run.state.endEid + k = e := by simpa using entry
      have slot := congrArg (·[k]?) slots
      simp only [List.getElem?_map, value, index, Option.map_some, Option.some.injEq] at slot
      exact Or.inr ⟨by simp only; omega, slot⟩
    · rw [indexAssign_other written] at entry
      rcases added s e entry with old | spare
      · rcases represents.owner s e old with spare | ⟨bound, same⟩
        · exact Or.inl spare
        · exact Or.inr ⟨by simp only; omega, (older bound).trans same⟩
      · exact Or.inl spare
  case refine_8 => simpa [represents.size] using room

/-- The slots looked up for the expired edges are the slots they were given. -/
theorem Represents.table1 {run : ExpireRun} {pool : SlotPool Nat} {expired last : List Nat}
    (represents : Represents run pool expired last) (expEids : run.state.expEids = some last)
    (fits : run.state.endEid ≤ unused) (searchable : Searchable run.state) :
    SearchKernel.findIndices (sort last) run.state.slotMap =
      some ((sort last).map (slotOf run.files)) := by
  obtain ⟨inMap, inLast⟩ := searchable last expEids
  have indexed : SearchKernel.Indexed (sort last) run.state.slotMap := by
    refine SearchKernel.indexed_iff.mpr ⟨fun e member => ?_, inLast⟩
    have gone := mem_sort.mp member
    have entry := represents.stored e (List.mem_append_right _ gone)
    obtain ⟨inside, starts⟩ := inMap e gone
    exact ⟨inside, starts.imp_left fun found => found (List.mem_of_getElem? entry)⟩
  obtain ⟨slots, found, entries⟩ := indexed
  rw [found]
  refine congrArg some (eq_map_of_forall₂ entries fun e member s entry => ?_)
  have bound := represents.allocated e (List.mem_append_right _ (mem_sort.mp member))
  rcases represents.owner _ e entry with spare | ⟨_, same⟩
  · omega
  · exact same.symm

/-- Allocation after the first block: the pool hands out the slots of the edges
that expired last, the spared ones and new ones. -/
theorem Represents.allocate_next {run : ExpireRun} {pool : SlotPool Nat} {expired last : List Nat}
    (represents : Represents run pool expired last) (count : Nat) :
    let result := allocateNext run.state count ((sort last).map (slotOf run.files))
    ∃ after, pool.Assigns (List.range' run.state.endEid count) after ∧
      Represents ⟨result.2, run.files ++ [result.1]⟩ after expired [] := by
  let table1 := (sort last).map (slotOf run.files)
  let chosen := chooseSlots table1 run.state.unexpireInd run.state.endPtr count
  have length : chosen.1.length = count := chooseSlots_length _ _ _ _
  have freed : pool.free.Perm (run.state.unexpireInd ++ table1) :=
    represents.free.trans (((sort_perm last).map _).symm.append_left _)
  have supply : (chosen.1 ++ chosen.2.1).Perm
      (pool.free ++ List.range' pool.size (count - chosen.2.2)) := by
    rw [represents.size]
    exact (chooseSlots_perm _ _ _ _).trans (freed.symm.append_right _)
  have room : pool.size + (count - chosen.2.2) ≤
      (growMap run.state.slotMap chosen.1).length := by
    rw [represents.size]
    have before := Nat.le_trans represents.room (growMap_length_le run.state.slotMap chosen.1)
    rcases Nat.eq_zero_or_pos (count - chosen.2.2) with none | some
    · omega
    · have new : run.state.endPtr + (count - chosen.2.2 - 1) ∈
          List.range' run.state.endPtr (count - chosen.2.2) := List.mem_range'_1.mpr (by omega)
      have last : run.state.endPtr + (count - chosen.2.2 - 1) ∈ chosen.1 := chooseSlots_grown new
      have inside := lt_growMap_length run.state.slotMap last
      omega
  have step := represents.assign (growMap run.state.slotMap chosen.1)
    run.state.expEids supply (fun s e => growMap_getElem?)
    (fun s e => growMap_entry) room
  rw [length] at step
  exact step

/-- The first block takes the first slots. -/
theorem Represents.allocate_first {maxEdgeNum count : Nat} (fits : count ≤ maxEdgeNum) :
    let result := allocateFirst (.initial maxEdgeNum) count
    ∃ after, (SlotPool.empty (slotOf [])).Assigns (List.range' 0 count) after ∧
      Represents ⟨result.2, [result.1]⟩ after [] [] := by
  have supply : (List.range count ++ []).Perm
      ((SlotPool.empty (slotOf [])).free ++ List.range' (SlotPool.empty (slotOf [])).size count) := by
    simp [SlotPool.empty, List.range_eq_range']
  have step := (Represents.initial maxEdgeNum).assign
    (AllocState.initial maxEdgeNum).slotMap none supply (fun _ _ entry => entry)
    (fun _ _ entry => Or.inl entry) (by simpa [SlotPool.empty, AllocState.initial] using fits)
  have written : indexAssign (List.replicate maxEdgeNum unused) (List.range count)
      (List.range' 0 count) =
      List.range' 0 count ++ (List.replicate maxEdgeNum unused).drop count :=
    indexAssign_range (by simp) (by simpa using fits)
  rw [List.drop_replicate] at written
  simpa [written, allocateFirst, AllocState.initial, SlotPool.empty] using step

/-- Expiry: the pool takes the slots back, and the next block will look them up. -/
theorem Represents.expire {state : AllocState} {files : List EdgeIncre} {pool : SlotPool Nat}
    {expired expEids : List Nat} (represents : Represents ⟨state, files⟩ pool expired [])
    (distinct : expEids.Nodup) (live : ∀ e ∈ expEids, e ∈ pool.live) :
    Represents ⟨{ state with expEids := some expEids }, files⟩
      (pool.release fun e => decide (e ∈ expEids)) (expired ++ expEids) expEids where
  slot := represents.slot
  live := by
    intro e
    simp only [SlotPool.release, List.mem_filter, represents.live, List.mem_append,
      Bool.not_eq_true', decide_eq_false_iff_not, not_or]
    exact and_assoc
  free := by
    have gone : (pool.live.filter fun e => decide (e ∈ expEids)).Perm expEids := by
      rw [List.perm_ext_iff_of_nodup (pool.live_nodup.filter _) distinct]
      intro e
      simpa using live e
    have slots := gone.map (slotOf files)
    have spared : pool.free.Perm state.unexpireInd := by simpa using represents.free
    simp only [SlotPool.release, represents.slot]
    exact spared.append slots
  size := represents.size
  count := represents.count
  allocated := by
    intro e member
    rcases List.mem_append.mp member with member | member
    · rcases List.mem_append.mp member with old | new
      · exact represents.allocated e (List.mem_append_left _ old)
      · exact ((represents.live e).mp (live e new)).1
    · exact ((represents.live e).mp (live e member)).1
  stored := by
    intro e member
    apply represents.stored e
    rcases List.mem_append.mp member with kept | gone
    · exact List.mem_append_left _ (List.mem_filter.mp kept).1
    · exact List.mem_append_left _ (live e gone)
  owner := represents.owner
  room := represents.room

end Dolphin.ValidEdge
