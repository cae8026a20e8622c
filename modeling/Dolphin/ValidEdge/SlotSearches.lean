import Mathlib.Data.List.Induction
import Dolphin.ValidEdge.Slots

/-!
# The searches of a run of the allocator

`map` starts with `max_edge_num` entries and grows only to a slot that is handed out, and
no more slots are handed out than there are edges. With at most 2³⁰ entries and as many
edges every search of a run stays in its table.
-/

namespace Dolphin.ValidEdge

open Dolphin.Graph Dolphin.Tensor

/-! ## Histories -/

/-- Blocks that may follow when `allocated` edges have slots and `expired` have
lost theirs: no block is empty, and an edge expires after its own block's
allocation and once. -/
def History : Nat → List Nat → List (Nat × List Nat) → Prop
  | _, _, [] => True
  | allocated, expired, (count, expEids) :: rest =>
      0 < count ∧ expEids.Nodup ∧ (∀ e ∈ expEids, e < allocated + count ∧ e ∉ expired) ∧
        History (allocated + count) (expired ++ expEids) rest

instance decidableHistory :
    ∀ allocated expired blocks, Decidable (History allocated expired blocks)
  | _, _, [] => inferInstanceAs (Decidable True)
  | allocated, expired, (count, expEids) :: rest =>
      have := decidableHistory (allocated + count) (expired ++ expEids) rest
      inferInstanceAs (Decidable (_ ∧ _))

/-- The number of edges of some blocks. -/
def edgesOf (blocks : List (Nat × List Nat)) : Nat := (blocks.map Prod.fst).sum

/-- The edges that expire in some blocks. -/
def expiredBy (blocks : List (Nat × List Nat)) : List Nat := blocks.flatMap Prod.snd

theorem History.append {done rest : List (Nat × List Nat)} {allocated : Nat} {expired : List Nat} :
    History allocated expired (done ++ rest) ↔ History allocated expired done ∧
      History (allocated + edgesOf done) (expired ++ expiredBy done) rest := by
  induction done generalizing allocated expired with
  | nil => simp [History, edgesOf, expiredBy]
  | cons block done ih =>
      obtain ⟨count, expEids⟩ := block
      simp only [List.cons_append, History, ih, edgesOf, expiredBy, List.map_cons, List.sum_cons,
        List.flatMap_cons, Nat.add_assoc, List.append_assoc]
      tauto

/-- The block behind some others is not empty, and its edges expire once. -/
theorem History.block {blocks done rest : List (Nat × List Nat)} {block : Nat × List Nat}
    (history : History 0 [] blocks) (split : blocks = done ++ block :: rest) :
    History (edgesOf done) (expiredBy done) [block] := by
  rw [split, History.append, ← List.singleton_append, History.append] at history
  simpa using history.2.1

/-! ## One turn of the loop -/

theorem genExpire_append (indptr : List Nat) (batchSize : Nat) (done : List (Nat × List Nat))
    (count : Nat) (expEids : List Nat) :
    genExpire indptr batchSize (done ++ [(count, expEids)]) =
      (genExpire indptr batchSize done).bind fun run => run.block count expEids := by
  unfold genExpire
  rw [List.foldlM_append]
  simp [bind]

/-- What an allocation does to the numbers, and the range in its file. -/
theorem allocate_spec {state : AllocState} {count : Nat} {result : EdgeIncre × AllocState}
    (allocated : allocate state count = some result) :
    result.2.endEid = state.endEid + count ∧
      result.1.bound = (state.endEid, state.endEid + count) ∧
      state.endPtr ≤ result.2.endPtr := by
  unfold allocate at allocated
  split at allocated
  · obtain rfl := Option.some.inj allocated
    exact ⟨rfl, rfl, Nat.le_add_right _ _⟩
  · obtain ⟨table1, -, rfl⟩ := Option.map_eq_some_iff.mp allocated
    exact ⟨rfl, rfl, Nat.le_add_right _ _⟩

/-! ## The entries of the map -/

/-- The map has no more entries than at first, or than there are edges. -/
structure AllocState.Bounded (maxEdgeNum : Nat) (state : AllocState) : Prop where
  slots : state.endPtr ≤ state.endEid
  spared : ∀ s ∈ state.unexpireInd, s < state.slotMap.length
  entries : state.slotMap.length ≤ max maxEdgeNum state.endEid

theorem maxOf_lt {xs : List Nat} {bound : Nat} (below : ∀ x ∈ xs, x < bound)
    (positive : 0 < bound) : maxOf xs < bound := by
  have fold : ∀ (xs : List Nat) (start : Nat), start < bound → (∀ x ∈ xs, x < bound) →
      xs.foldl max start < bound := by
    intro xs
    induction xs with
    | nil => exact fun _ small _ => small
    | cons x xs ih =>
        intro start small below
        obtain ⟨here, rest⟩ := List.forall_mem_cons.mp below
        exact ih (max start x) (max_lt small here) rest
  exact fold xs 0 positive below

theorem growMap_length (slotMap replaceIdx : List Nat) :
    (growMap slotMap replaceIdx).length = max slotMap.length (maxOf replaceIdx + 1) := by
  unfold growMap
  split
  · rw [List.length_append, List.length_replicate]
    omega
  · omega

variable {state : AllocState} {most count : Nat}

theorem AllocState.Bounded.first (bounded : state.Bounded most) :
    (allocateFirst state count).2.Bounded most where
  slots := Nat.add_le_add_right bounded.slots count
  spared s member := by
    have before := bounded.spared s member
    change s < (List.range' state.endEid count ++ state.slotMap.drop count).length
    rw [List.length_append, List.length_range', List.length_drop]
    omega
  entries := by
    have before := bounded.entries
    change (List.range' state.endEid count ++ state.slotMap.drop count).length ≤
      max most (state.endEid + count)
    rw [List.length_append, List.length_range', List.length_drop]
    omega

theorem AllocState.Bounded.next (bounded : state.Bounded most) (nonempty : 0 < count)
    {table1 : List Nat} (found : ∀ s ∈ table1, s < state.slotMap.length) :
    (allocateNext state count table1).2.Bounded most := by
  let chosen := chooseSlots table1 state.unexpireInd state.endPtr count
  have slots := bounded.slots
  have entries := bounded.entries
  -- every slot is an entry of the map or a new one
  have all : ∀ s ∈ chosen.1 ++ chosen.2.1, s < state.slotMap.length ∨
      s ∈ List.range' state.endPtr (count - chosen.2.2) := by
    intro s member
    rcases List.mem_append.mp ((chooseSlots_perm _ _ _ _).mem_iff.mp member) with old | new
    · rcases List.mem_append.mp old with spare | expired
      · exact Or.inl (bounded.spared s spare)
      · exact Or.inl (found s expired)
    · exact Or.inr new
  have grown := growMap_length state.slotMap chosen.1
  refine ⟨?_, ?_, ?_⟩
  · change state.endPtr + (count - chosen.2.2) ≤ state.endEid + count
    omega
  · intro s member
    change s < (indexAssign (growMap state.slotMap chosen.1) chosen.1 _).length
    rw [indexAssign_length]
    rcases all s (List.mem_append_right _ member) with old | new
    · exact old.trans_le (growMap_length_le _ _)
    · exact lt_growMap_length _ (chooseSlots_grown new)
  · change (indexAssign (growMap state.slotMap chosen.1) chosen.1 _).length ≤
      max most (state.endEid + count)
    have largest : maxOf chosen.1 < max most (state.endEid + count) := by
      refine maxOf_lt (fun s member => ?_) (by omega)
      rcases all s (List.mem_append_left _ member) with old | new
      · omega
      · have inside := (List.mem_range'_1.mp new).2
        omega
    rw [indexAssign_length, grown]
    omega

theorem AllocState.Bounded.allocate (bounded : state.Bounded most) (nonempty : 0 < count)
    {result : EdgeIncre × AllocState} (allocated : allocate state count = some result) :
    result.2.Bounded most := by
  unfold ValidEdge.allocate at allocated
  split at allocated
  · obtain rfl := Option.some.inj allocated
    exact bounded.first
  · obtain ⟨table1, found, rfl⟩ := Option.map_eq_some_iff.mp allocated
    exact bounded.next nonempty (SearchKernel.findIndices_lt found)

/-! ## Runs of few entries -/

variable {indptr : List Nat} {batchSize : Nat}

/-- What holds before a block: the map is bounded, and the edges that expired last are
distinct edges before the block. -/
structure AllocState.Before (most edges : Nat) (state : AllocState) : Prop where
  bounded : state.Bounded most
  endEid : state.endEid = edges
  distinct : ∀ last, state.expEids = some last → last.Nodup
  allocated : ∀ last, state.expEids = some last → ∀ e ∈ last, e < edges

theorem genExpire_before {blocks : List (Nat × List Nat)} (history : History 0 [] blocks)
    {done rest : List (Nat × List Nat)} (split : blocks = done ++ rest) {run : ExpireRun}
    (ran : genExpire indptr batchSize done = some run) :
    run.state.Before (maxEdgeNum indptr batchSize) (edgesOf done) := by
  induction done using List.reverseRecOn generalizing rest run with
  | nil =>
      obtain rfl := Option.some.inj ran
      refine ⟨⟨Nat.le_refl _, fun _ member => absurd member List.not_mem_nil, ?_⟩, rfl, ?_, ?_⟩
      · simp [AllocState.initial]
      · exact fun _ none_ => nomatch none_
      · exact fun _ none_ => nomatch none_
  | append_singleton done block ih =>
      have regroup : blocks = done ++ block :: rest := by simpa using split
      rw [genExpire_append] at ran
      obtain ⟨before, first, turn⟩ := Option.bind_eq_some_iff.mp ran
      obtain ⟨result, allocated, rfl⟩ := Option.map_eq_some_iff.mp turn
      obtain ⟨nonempty, distinct, inside, -⟩ := history.block regroup
      have held := ih regroup first
      have edges : edgesOf (done ++ [block]) = edgesOf done + block.1 := by simp [edgesOf]
      have bounded := held.bounded.allocate nonempty allocated
      have endEid := (allocate_spec allocated).1
      rw [held.endEid] at endEid
      rw [edges]
      refine ⟨⟨bounded.slots, bounded.spared, bounded.entries⟩, endEid, ?_, ?_⟩
      · intro last own
        obtain rfl := Option.some.inj own
        exact distinct
      · intro last own e member
        obtain rfl := Option.some.inj own
        exact (inside e member).1

/-- Few entries and few edges are searched for in their tables. -/
theorem searchableRun_of_few {blocks : List (Nat × List Nat)} (history : History 0 [] blocks)
    (entries : maxEdgeNum indptr batchSize ≤ 2 ^ 30) (edges : edgesOf blocks ≤ 2 ^ 30) :
    SearchableRun indptr batchSize blocks := by
  intro done block rest split run ran last own
  have held := genExpire_before history split ran
  have total : edgesOf done ≤ edgesOf blocks := by simp [split, edgesOf]
  have shortMap : run.state.slotMap.length ≤ 2 ^ 30 := by
    have bounded := held.bounded.entries
    rw [held.endEid] at bounded
    omega
  have shortLast : last.length ≤ 2 ^ 30 := by
    have inside : last ⊆ List.range (edgesOf done) := fun e member =>
      List.mem_range.mpr (held.allocated last own e member)
    have count := (held.distinct last own).length_le_of_subset inside
    rw [List.length_range] at count
    omega
  have sorted : (sort run.state.slotMap).length ≤ 2 ^ 30 := by rwa [sort_length]
  refine ⟨fun e _ => ⟨SearchKernel.not_overflows_of_length sorted, Or.inl fun member => ?_⟩,
    fun e _ => SearchKernel.not_overflows_of_length (by rwa [sort_length])⟩
  rw [SearchKernel.reach_of_small (by omega), ← sort_length, List.take_length]
  exact mem_sort.mpr member

end Dolphin.ValidEdge
