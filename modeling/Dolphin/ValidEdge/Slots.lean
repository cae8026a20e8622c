import Dolphin.Alloc.SlotPool
import Dolphin.Graph.SearchExact

/-!
# The valid-edge slot allocator

`gen_expire` gives every edge of a block a slot of the valid-edge cache: first
the slots of the edges that expired in the previous block, then slots that were
spared earlier, and only then new ones. `allocate` is that part of its loop;
what expires is an input here and computed in `Dolphin.ValidEdge.GenExpire`.
For each block it writes the edge range and the slots, which `update_valid_edge`
replays on `valid_map` and `valid_ef`. The slots of expired edges are searched for in
`map`; a search that reads outside of its table ends the run.
-/

namespace Dolphin.ValidEdge

open Dolphin.Alloc Dolphin.Graph Dolphin.Tensor

/-! ## The allocator -/

/-- The value of a `map` entry that holds no edge. -/
def unused : Nat := 2 ^ 31 - 1

/-- The files of one block: `edge_incre_bound` and `edge_incre_replace`. -/
structure EdgeIncre where
  bound : Nat × Nat
  replaceIdx : List Nat
  deriving DecidableEq

/-- The variables of `gen_expire` that its slot allocation reads and writes. -/
structure AllocState where
  endEid : Nat
  endPtr : Nat
  /-- `map`: the edge in every slot. -/
  slotMap : List Nat
  expEids : Option (List Nat)
  unexpireInd : List Nat
  deriving DecidableEq

/-- The variables before the first block; `map` has `max_edge_num` entries. -/
def AllocState.initial (maxEdgeNum : Nat) : AllocState where
  endEid := 0
  endPtr := 0
  slotMap := List.replicate maxEdgeNum unused
  expEids := none
  unexpireInd := []

/-- The slots for `count` edges: `replace_idx`, the new `unexpire_ind` and
`unalloc_ptr`, behind which the slots are new ones. -/
def chooseSlots (table1 unexpireInd : List Nat) (endPtr count : Nat) :
    List Nat × List Nat × Nat :=
  if count ≤ table1.length then
    (table1.take count, unexpireInd ++ table1.drop count, count)
  else if count ≤ table1.length + unexpireInd.length then
    let useExpireNum := count - table1.length
    (table1 ++ unexpireInd.take useExpireNum, unexpireInd.drop useExpireNum, count)
  else
    let unallocPtr := table1.length + unexpireInd.length
    (table1 ++ unexpireInd ++ List.range' endPtr (count - unallocPtr), [], unallocPtr)

/-- `torch.max`, of a tensor that is not empty. -/
def maxOf (xs : List Nat) : Nat := xs.foldl max 0

/-- `map` grown to the largest slot to be written. -/
def growMap (slotMap replaceIdx : List Nat) : List Nat :=
  if slotMap.length ≤ maxOf replaceIdx then
    slotMap ++ List.replicate (maxOf replaceIdx - slotMap.length + 1) unused
  else slotMap

/-- The slot allocation of the first block, which has `count` edges. -/
def allocateFirst (state : AllocState) (count : Nat) : EdgeIncre × AllocState :=
  (⟨(state.endEid, state.endEid + count), List.range count⟩,
    { state with
      endEid := state.endEid + count
      endPtr := state.endPtr + count
      slotMap := List.range' state.endEid count ++ state.slotMap.drop count })

/-- The slot allocation of a later block, with the slots of the edges that expired last.
The source's test for −1 looks at sort indices, which are never negative, so its error
branch is not taken by any input. -/
def allocateNext (state : AllocState) (count : Nat) (table1 : List Nat) :
    EdgeIncre × AllocState :=
  let chosen := chooseSlots table1 state.unexpireInd state.endPtr count
  (⟨(state.endEid, state.endEid + count), chosen.1⟩,
    { state with
      endEid := state.endEid + count
      endPtr := state.endPtr + (count - chosen.2.2)
      slotMap := indexAssign (growMap state.slotMap chosen.1) chosen.1
        (List.range' state.endEid count)
      unexpireInd := chosen.2.1 })

/-- The slot allocation of one block; `none` where a search reads outside of its table. -/
def allocate (state : AllocState) (count : Nat) : Option (EdgeIncre × AllocState) :=
  match state.expEids with
  | none => some (allocateFirst state count)
  | some expEids =>
      (SearchKernel.findIndices (sort expEids) state.slotMap).map (allocateNext state count)

/-- The allocator and the files written so far. -/
structure ExpireRun where
  state : AllocState
  files : List EdgeIncre
  deriving DecidableEq

/-- The end of a turn: the block's file is written, and its edges that expire are known. -/
def ExpireRun.write (run : ExpireRun) (expEids : List Nat) (result : EdgeIncre × AllocState) :
    ExpireRun where
  state := { result.2 with expEids := some expEids }
  files := run.files ++ [result.1]

/-- One turn of the loop: a block of `count` edges, after which `expEids` expire. -/
def ExpireRun.block (run : ExpireRun) (count : Nat) (expEids : List Nat) : Option ExpireRun :=
  (allocate run.state count).map (run.write expEids)

/-- `get_max_edge_num(indptr)`: the degrees, none counted above ten, summed. -/
def getMaxEdgeNum (indptr : List Nat) : Nat :=
  ((indptr.zip indptr.tail).map fun ends => min (ends.2 - ends.1) 10).sum

/-- `max_edge_num`: the entries `map` starts with. -/
def maxEdgeNum (indptr : List Nat) (batchSize : Nat) : Nat :=
  getMaxEdgeNum indptr + batchSize * 3

/-- `gen_expire` on blocks given by their number of edges and what expires. -/
def genExpire (indptr : List Nat) (batchSize : Nat) (blocks : List (Nat × List Nat)) :
    Option ExpireRun :=
  blocks.foldlM (fun run block => run.block block.1 block.2)
    ⟨.initial (maxEdgeNum indptr batchSize), []⟩

/-! ## The searches of a run -/

/-- The searches for the edges that expired last stay in their tables. They start with the
entries of their edges, or else miss the greatest entry. -/
def Searchable (state : AllocState) : Prop :=
  ∀ expEids, state.expEids = some expEids →
    (∀ e ∈ expEids, ¬SearchKernel.Overflows (sort state.slotMap) e ∧
      ((e ∈ state.slotMap →
          e ∈ (sort state.slotMap).take (SearchKernel.reach state.slotMap.length)) ∨
        (sort state.slotMap).getLast? = some e)) ∧
    ∀ e ∈ state.slotMap, ¬SearchKernel.Overflows (sort expEids) e

/-- Before every block of a run they do. -/
def SearchableRun (indptr : List Nat) (batchSize : Nat) (blocks : List (Nat × List Nat)) : Prop :=
  ∀ done block rest, blocks = done ++ block :: rest →
    ∀ run, genExpire indptr batchSize done = some run → Searchable run.state

/-- The slot `gen_expire` gave to an edge: the blocks' ranges follow each other,
so the edge's id is its position in the slots written so far. -/
def slotOf (files : List EdgeIncre) (eid : Nat) : Nat :=
  (files.flatMap EdgeIncre.replaceIdx).getD eid 0

/-! ## The online side -/

variable {α : Type*} [Inhabited α]

/-- `valid_map` and `valid_ef`. -/
structure ValidEdges (α : Type*) where
  validMap : List Nat
  validEf : List α

/-- The zero tensors `init_valid_edge` starts from. -/
def ValidEdges.zeros (maxValidNum edgeNum : Nat) : ValidEdges α where
  validMap := List.replicate edgeNum 0
  validEf := List.replicate maxValidNum default

/-- `update_valid_edge(block_num)`; without the block's file, or with an index
out of range, the call fails. -/
def updateValidEdge (files : List EdgeIncre) (edgeFeatures : List α) (valid : ValidEdges α)
    (blockNum : Nat) : Option (ValidEdges α) :=
  match files[blockNum]? with
  | none => none
  | some file =>
      let validInd := List.range' file.bound.1 (file.bound.2 - file.bound.1)
      if (∀ e ∈ validInd, e < valid.validMap.length ∧ e < edgeFeatures.length) ∧
          ∀ s ∈ file.replaceIdx, s < valid.validEf.length then
        some
          { validMap := indexAssign valid.validMap validInd file.replaceIdx
            validEf := indexAssign valid.validEf file.replaceIdx (gather edgeFeatures validInd) }
      else none

/-- `get_ef_valid(eids)`. -/
def getEfValid (valid : ValidEdges α) (eids : List Nat) : List α :=
  gather valid.validEf (gather valid.validMap eids)

/-- `update_valid_edge(0)`, …, `update_valid_edge(count - 1)` on zero tensors. -/
def replay (files : List EdgeIncre) (edgeFeatures : List α) (maxValidNum edgeNum count : Nat) :
    Option (ValidEdges α) :=
  (List.range count).foldlM (updateValidEdge files edgeFeatures)
    (ValidEdges.zeros maxValidNum edgeNum)

/-! ## The choice of slots -/

/-- As many slots as edges are chosen. -/
theorem chooseSlots_length (table1 unexpireInd : List Nat) (endPtr count : Nat) :
    (chooseSlots table1 unexpireInd endPtr count).1.length = count := by
  unfold chooseSlots
  split
  case isTrue enough => simpa using enough
  case isFalse =>
      split
      case isTrue short enough => simp; omega
      case isFalse => simp; omega

/-- Whatever branch is taken, the chosen slots and the spared ones are the
expired, the spared and the new slots. -/
theorem chooseSlots_perm (table1 unexpireInd : List Nat) (endPtr count : Nat) :
    ((chooseSlots table1 unexpireInd endPtr count).1 ++
      (chooseSlots table1 unexpireInd endPtr count).2.1).Perm
      (unexpireInd ++ table1 ++
        List.range' endPtr (count - (chooseSlots table1 unexpireInd endPtr count).2.2)) := by
  unfold chooseSlots
  split
  case isTrue =>
      have regrouped : (table1.take count ++ (unexpireInd ++ table1.drop count)).Perm
          (unexpireInd ++ (table1.take count ++ table1.drop count)) := by
        rw [← List.append_assoc, ← List.append_assoc]
        exact List.perm_append_comm.append_right _
      simpa using regrouped
  case isFalse =>
      split
      case isTrue =>
          have whole : table1 ++ unexpireInd.take (count - table1.length) ++
              unexpireInd.drop (count - table1.length) = table1 ++ unexpireInd := by
            rw [List.append_assoc, List.take_append_drop]
          simpa [whole] using List.perm_append_comm
      case isFalse =>
          have swapped : (table1 ++ unexpireInd).Perm (unexpireInd ++ table1) :=
            List.perm_append_comm
          simpa using swapped.append_right _

/-- The map only grows by slots that are handed out at once. -/
theorem chooseSlots_grown {table1 unexpireInd : List Nat} {endPtr count s : Nat}
    (new : s ∈ List.range' endPtr
      (count - (chooseSlots table1 unexpireInd endPtr count).2.2)) :
    s ∈ (chooseSlots table1 unexpireInd endPtr count).1 := by
  unfold chooseSlots at new ⊢
  split at new
  case isTrue => simp at new
  case isFalse short =>
      rw [if_neg short]
      split at new
      case isTrue => simp at new
      case isFalse few =>
          rw [if_neg few]
          exact List.mem_append_right _ new

theorem le_maxOf {xs : List Nat} {x : Nat} (member : x ∈ xs) : x ≤ maxOf xs := by
  have fold : ∀ (xs : List Nat) (start : Nat), start ≤ xs.foldl max start ∧
      ∀ x ∈ xs, x ≤ xs.foldl max start := by
    intro xs
    induction xs with
    | nil => simp
    | cons y ys ih =>
        intro start
        obtain ⟨first, rest⟩ := ih (max start y)
        refine ⟨by simp only [List.foldl_cons]; omega, ?_⟩
        intro x member
        rcases List.mem_cons.mp member with rfl | later
        · simp only [List.foldl_cons]; omega
        · exact rest x later
  exact (fold xs 0).2 x member

/-- The grown map has a place for every slot to be written. -/
theorem lt_growMap_length (slotMap : List Nat) {replaceIdx : List Nat} {s : Nat}
    (member : s ∈ replaceIdx) :
    s < (growMap slotMap replaceIdx).length := by
  have largest := le_maxOf member
  unfold growMap
  split
  · simp; omega
  · omega

theorem growMap_length_le (slotMap replaceIdx : List Nat) :
    slotMap.length ≤ (growMap slotMap replaceIdx).length := by
  unfold growMap
  split <;> simp

/-- Growing keeps the entries and adds unused ones. -/
theorem growMap_entry {slotMap replaceIdx : List Nat} {s eid : Nat}
    (entry : (growMap slotMap replaceIdx)[s]? = some eid) :
    slotMap[s]? = some eid ∨ eid = unused := by
  unfold growMap at entry
  split at entry
  · rw [List.getElem?_append] at entry
    split at entry
    · exact Or.inl entry
    · right
      exact List.eq_of_mem_replicate (List.mem_of_getElem? entry)
  · exact Or.inl entry

theorem growMap_getElem? {slotMap replaceIdx : List Nat} {s eid : Nat}
    (entry : slotMap[s]? = some eid) : (growMap slotMap replaceIdx)[s]? = some eid := by
  have bound : s < slotMap.length := (List.getElem?_eq_some_iff.mp entry).1
  unfold growMap
  split
  · rw [List.getElem?_append_left bound, entry]
  · exact entry

end Dolphin.ValidEdge
