import Dolphin.Memory.DiskMemory

/-!
# Rows of the memory file

Packing and unpacking a node's fields are inverse, a file update is one indexed
assignment whatever the order of its batches, and `mem_select` reads for each
node the row that holds it.
-/

namespace Dolphin.Memory

open Dolphin.Tensor

variable {α : Type} {param : MemoryParam}

/-! ## Packing -/

/-- Cutting a concatenation into its parts again. -/
theorem reshape_flatten {β : Type} {width : Nat} {xss : List (List β)}
    (widths : ∀ xs ∈ xss, xs.length = width) : reshape xss.length width xss.flatten = xss := by
  induction xss with
  | nil => rfl
  | cons xs xss ih =>
      obtain ⟨first, rest⟩ := List.forall_mem_cons.mp widths
      have head : (xs ++ xss.flatten).take width = xs := by simp [← first]
      have tail : ∀ i, (xs ++ xss.flatten).drop ((i + 1) * width) =
          xss.flatten.drop (i * width) := by
        intro i
        have split : (i + 1) * width = xs.length + i * width := by
          rw [Nat.succ_mul, first, Nat.add_comm]
        rw [split, ← List.drop_drop, List.drop_left]
      have later := ih rest
      simp only [reshape] at later
      simp only [reshape, List.length_cons, List.range_succ_eq_map, List.map_cons, List.map_map,
        List.flatten_cons, Nat.zero_mul, List.drop_zero, head]
      refine congrArg (xs :: ·) (Eq.trans ?_ later)
      apply List.map_congr_left
      intro i _
      simp only [Function.comp_apply, Nat.succ_eq_add_one, tail]

/-- The widths of the packed fields. -/
theorem NodeMem.Shaped.widths {mem : NodeMem α} (shaped : mem.Shaped param) :
    [mem.memory, [mem.memoryTs], mem.mailbox.flatten, mem.mailboxTs].map List.length =
      param.widths := by
  have mails : (mem.mailbox.map List.length).sum = param.mailboxSize * param.mailDim := by
    have equal : mem.mailbox.map List.length = List.replicate param.mailboxSize param.mailDim := by
      rw [List.eq_replicate_iff, List.length_map]
      refine ⟨shaped.mailbox, fun length member => ?_⟩
      obtain ⟨mail, inside, rfl⟩ := List.mem_map.mp member
      exact shaped.mails mail inside
    rw [equal, List.sum_replicate_nat]
  simp [MemoryParam.widths, shaped.memory, shaped.mailboxTs, mails, List.length_flatten]

section

variable [Inhabited α]

/-- A packed row is read back field by field. -/
theorem unpack_pack {mem : NodeMem α} (shaped : mem.Shaped param) :
    unpack param mem.pack = mem := by
  have fields : mem.pack =
      [mem.memory, [mem.memoryTs], mem.mailbox.flatten, mem.mailboxTs].flatten := by
    simp [NodeMem.pack]
  have row : ∀ b (bound : b < 4), raggedRow mem.pack param.memDiffShape b =
      [mem.memory, [mem.memoryTs], mem.mailbox.flatten, mem.mailboxTs][b] := by
    intro b bound
    rw [fields, MemoryParam.memDiffShape, ← shaped.widths]
    exact raggedRow_flatten bound
  have mails := reshape_flatten shaped.mails
  rw [shaped.mailbox] at mails
  ext1
  · exact row 0 (by decide)
  · change (raggedRow mem.pack param.memDiffShape 1).getD 0 default = mem.memoryTs
    rw [row 1 (by decide)]
    rfl
  · change reshape _ _ (raggedRow mem.pack param.memDiffShape 2) = mem.mailbox
    rw [row 2 (by decide)]
    exact mails
  · exact row 3 (by decide)

/-- The zero row of `mem_total`. -/
theorem pack_zeros :
    (NodeRow.zeros α param).1.pack = List.replicate param.memTotalShape default := by
  have single : [(default : α)] = List.replicate 1 default := rfl
  simp only [NodeRow.zeros, NodeMem.pack, List.flatten_replicate_replicate, single,
    List.replicate_append_replicate]
  congr 1
  simp [MemoryParam.memTotalShape, MemoryParam.widths]
  omega

end

/-! ## Updating the file -/

theorem batchesOf_flatten {β : Type} {batchSize : Nat} (positive : 0 < batchSize) {fuel : Nat}
    {writes : List β} (enough : writes.length ≤ fuel) :
    (batchesOf batchSize fuel writes).flatten = writes := by
  induction fuel generalizing writes with
  | zero =>
      obtain rfl : writes = [] := List.eq_nil_of_length_eq_zero (by omega)
      rfl
  | succ fuel ih =>
      rw [batchesOf]
      split
      case isTrue empty => simp [List.eq_nil_of_length_eq_zero empty]
      case isFalse some_ =>
          rw [List.flatten_cons, ih (by rw [List.length_drop]; omega), List.take_append_drop]

/-- The file receives the rows one after the other, in some order. -/
theorem updateBinDisk_foldl (schedule : Schedule α) (disk values : List (List α))
    (ind : List Nat) :
    ∃ writes : List (Nat × List α), writes.Perm (ind.zip values) ∧ updateBinDisk schedule disk values ind =
      writes.foldl (fun rows write => rows.set write.1 write.2) disk := by
  refine ⟨(schedule.order (batchesOf 4096 (ind.zip values).length (ind.zip values))).flatten,
    ?_, ?_⟩
  · have positive : 0 < 4096 := by decide
    have whole := batchesOf_flatten positive (Nat.le_refl (ind.zip values).length)
    have ordered := (schedule.perm (batchesOf 4096 (ind.zip values).length
      (ind.zip values))).flatten
    rwa [whole] at ordered
  · rw [List.foldl_flatten]
    rfl

/-- Writes to different rows may be made in any order. -/
theorem updateBinDisk_eq (schedule : Schedule α) (disk : List (List α)) {values : List (List α)}
    {ind : List Nat} (distinct : ind.Nodup) (aligned : values.length = ind.length) :
    updateBinDisk schedule disk values ind = indexAssign disk ind values := by
  have rows : ((ind.zip values).map Prod.fst).Nodup := by
    rw [List.map_fst_zip (Nat.le_of_eq aligned.symm)]
    exact distinct
  obtain ⟨writes, order, result⟩ := updateBinDisk_foldl schedule disk values ind
  rw [result, indexAssign]
  refine order.foldl_eq' (fun x xIn y yIn rows_ => ?_) disk
  by_cases same : x.1 = y.1
  · rw [List.inj_on_of_nodup_map rows (order.mem_iff.mp xIn) (order.mem_iff.mp yIn) same]
  · exact List.set_comm _ _ same

/-- The other rows of the file stay as they are. -/
theorem updateBinDisk_other (schedule : Schedule α) (disk values : List (List α))
    {ind : List Nat} {row : Nat} (other : row ∉ ind) :
    (updateBinDisk schedule disk values ind)[row]? = disk[row]? := by
  obtain ⟨writes, order, result⟩ := updateBinDisk_foldl schedule disk values ind
  have elsewhere : ∀ write ∈ writes, write.1 ≠ row := by
    rintro write member rfl
    exact other (List.of_mem_zip (order.mem_iff.mp member)).1
  rw [result]
  clear result order
  induction writes generalizing disk with
  | nil => rfl
  | cons write writes ih =>
      obtain ⟨own, rest⟩ := List.forall_mem_cons.mp elsewhere
      rw [List.foldl_cons, ih _ rest, List.getElem?_set_ne own]

/-! ## Selecting rows -/

variable [Inhabited α]

/-- The row that holds a node: a slot of the cache, a row of the file, or, for a
node that was never written, zeros. -/
def rowOf (param : MemoryParam) (nodeReorderMap : List Nat) (store : DiskMemory α) (v : Nat) :
    List α :=
  if store.memFlag.getD v false then
    if store.nodeCacheFlag.getD v 0 ≠ 0 then
      store.cacheMemory.getD (store.nodeCacheFlag.getD v 0) default
    else store.disk.getD (nodeReorderMap.getD v 0) default
  else List.replicate param.memTotalShape default

theorem nonzero_map_range (p : Nat → Bool) (count : Nat) :
    nonzero ((List.range count).map p) = (List.range count).filter p := by
  rw [nonzero, List.length_map, List.length_range, maskSelect_map_self]

/-- Positions picked by a condition on a column of them. -/
theorem gather_nonzero_map {β : Type} [Inhabited β] (f : Nat → β) (p : Nat → Bool)
    (positions : List Nat) :
    gather (positions.map f) (nonzero (positions.map p)) = (positions.filter p).map f := by
  rw [gather_nonzero (by simp), maskSelect_map]

/-- `mem_select` reads node by node. -/
theorem memSelect_eq (param : MemoryParam) (nodeReorderMap : List Nat) (store : DiskMemory α)
    (indices : List Nat) :
    memSelect param nodeReorderMap store indices =
      indices.map fun v => unpack param (rowOf param nodeReorderMap store v) := by
  let node : Nat → Nat := fun j => indices.getD j default
  let flagged : Nat → Bool := fun j => store.memFlag.getD (node j) false
  let slot : Nat → Nat := fun j => store.nodeCacheFlag.getD (node j) 0
  let cached : Nat → List α := fun j => store.cacheMemory.getD (slot j) default
  let stored : Nat → List α := fun j =>
    store.disk.getD (nodeReorderMap.getD (node j) 0) default
  have column : indices = (List.range indices.length).map node := (gather_range indices).symm
  have loadInd : nonzero (gather store.memFlag indices) =
      (List.range indices.length).filter flagged := by
    have flags : gather store.memFlag indices = (List.range indices.length).map flagged := by
      conv_lhs => rw [column]
      rw [gather, List.map_map]
      rfl
    rw [flags, nonzero_map_range]
  unfold memSelect
  simp only [loadInd]
  generalize positions : (List.range indices.length).filter flagged = loaded
  have slots : gather store.nodeCacheFlag (gather indices loaded) = loaded.map slot := by
    rw [gather, gather, List.map_map]
    rfl
  have picked : ∀ p : Nat → Bool, gather loaded (nonzero ((loaded.map slot).map p)) =
      loaded.filter (p ∘ slot) := by
    intro p
    have own := gather_nonzero_map id (p ∘ slot) loaded
    rwa [List.map_id, List.map_id, ← List.map_map] at own
  have cacheRows : gather store.cacheMemory (gather (loaded.map slot)
      (nonzero ((loaded.map slot).map (· != 0)))) =
        (loaded.filter ((· != 0) ∘ slot)).map cached := by
    rw [List.map_map, gather_nonzero_map, gather, List.map_map]
    rfl
  have diskRows : gather store.disk (gather nodeReorderMap (gather indices
      (loaded.filter ((· == 0) ∘ slot)))) = (loaded.filter ((· == 0) ∘ slot)).map stored := by
    rw [gather, gather, gather, List.map_map, List.map_map]
    rfl
  rw [slots, picked, picked, cacheRows, diskRows]
  have inRange : ∀ {rows : List (List α)} (p : Nat → Bool), rows.length = indices.length →
      ∀ i ∈ loaded.filter p, i < rows.length := by
    intro rows p length i member
    rw [← positions] at member
    rw [length]
    exact List.mem_range.mp (List.mem_filter.mp (List.mem_filter.mp member).1).1
  have rows : indexAssign (indexAssign
        (List.replicate indices.length (List.replicate param.memTotalShape default))
        (loaded.filter ((· != 0) ∘ slot)) ((loaded.filter ((· != 0) ∘ slot)).map cached))
      (loaded.filter ((· == 0) ∘ slot)) ((loaded.filter ((· == 0) ∘ slot)).map stored) =
      (List.range indices.length).map fun j => rowOf param nodeReorderMap store (node j) := by
    apply List.ext_getElem?
    intro j
    rw [getElem?_indexAssign_map (inRange _ (by simp)),
      getElem?_indexAssign_map (inRange _ (by simp)), ← positions]
    by_cases inside : j < indices.length
    · simp only [List.mem_filter, List.mem_range, inside, true_and, Function.comp_apply,
        List.getElem?_replicate, List.getElem?_map, List.getElem?_range, Option.map_some,
        if_true, rowOf, bne_iff_ne, beq_iff_eq]
      change _ = some (if flagged j = true then if slot j ≠ 0 then cached j else stored j
        else List.replicate param.memTotalShape default)
      by_cases written : flagged j = true
      · by_cases empty : slot j = 0
        · simp [written, empty]
        · simp [written, empty]
      · simp [written]
    · simp [inside]
  rw [rows, List.map_map]
  conv_rhs => rw [column, List.map_map]
  rfl

end Dolphin.Memory
