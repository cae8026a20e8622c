import Dolphin.Semantics.Calls
import Dolphin.Semantics.Gathering
import Dolphin.Store.ReadYourWrites

/-!
# Reading rows with a pool of threads

`read_data_from_file_concurrent` gathers the batches as their reads complete.
`read_data_from_file_concurrent1` lets each read write its part of one flat array, but
takes numbers of rows for positions in it. Both return the rows that `read_data_from_file`
returns only for particular tables.
-/

namespace Dolphin.Store

open Dolphin.Semantics Dolphin.Memory

/-! ## The readers -/

/-- `read_data_from_file_concurrent(file_path, indices, shape, dtype, batch_size)`; the
results are in the order of `as_completed`, and `future.result()` raises what the read
raised. -/
def readDataFromFileConcurrent (batchSize : Nat) (completion : Completion (List Nat))
    (info : TensorInfo) (bytes : List UInt8) (indices : List Nat) : Option Tensor := do
  let data ← memmap info bytes
  let futures := batchesOf batchSize indices.length indices
  let result ← (completion.order futures).mapM (readBatch info data)
  if result = [] then some ⟨info.dtype, [0], []⟩ else reshapeRead info result.flatten

/-- `result[start:stop] = values` for a flat array: the slice ends where the array ends, one
value fills all of it, and any other number of values than it has raises. -/
def assignSlice (itemsize : Nat) (result : List UInt8) (start stop : Nat) (values : List UInt8) :
    Option (List UInt8) :=
  let count := result.length / itemsize
  let length := min stop count - min start count
  if values.length = length * itemsize then some (splice result (min start count * itemsize) values)
  else if values.length = itemsize then
    some (splice result (min start count * itemsize) (List.replicate length values).flatten)
  else none

/-- `read_batch(root_indices, batch_indices)`. Nobody looks at what it raises. -/
def readRoot (info : TensorInfo) (data : List UInt8) (batchSize : Nat) (result : List UInt8)
    (root : Nat × List Nat) : List UInt8 :=
  ((readBatch info data root.2).bind
    (assignSlice info.dtype.itemsize result root.1 (root.1 + batchSize))).getD result

/-- Each `i in range(0, len(indices), batch_size)` with `indices[i:i+batch_size]`. -/
def roots (batchSize : Nat) (indices : List Nat) : List (Nat × List Nat) :=
  ((List.range indices.length).filter (batchSize ∣ ·)).map fun i =>
    (i, (indices.drop i).take batchSize)

/-- `read_data_from_file_concurrent1(file_path, indices, shape, dtype, batch_size)`. -/
def readDataFromFileConcurrent1 (batchSize : Nat) (completion : Completion (Nat × List Nat))
    (info : TensorInfo) (bytes : List UInt8) (indices : List Nat) : Option Tensor :=
  match info.shape with
  | rows :: width :: _ => do
      let table : TensorInfo := ⟨info.dtype, [rows, width]⟩
      let data ← memmap table bytes
      let zeros := List.replicate (indices.length * width * info.dtype.itemsize) 0
      let result := (completion.order (roots batchSize indices)).foldl
        (readRoot table data batchSize) zeros
      reshapeRead table result
  | _ => none

/-! ## Files of rows -/

/-- A table whose rows have `width` elements each. -/
structure RowFile where
  dtype : DType
  rows : Nat
  width : Nat
  data : List UInt8
  positive : 0 < width
  sized : data.length = rows * (width * dtype.itemsize)

namespace RowFile

def info (file : RowFile) : TensorInfo := ⟨file.dtype, [file.rows, file.width]⟩

def rowBytes (file : RowFile) : Nat := file.width * file.dtype.itemsize

/-- The bytes of a row. -/
def row (file : RowFile) (id : Nat) : List UInt8 := mappedRow file.rowBytes file.data id

end RowFile

/-- Element type and rows of what a reader returns; a tensor without a second dimension
has none. -/
def Tensor.content (tensor : Tensor) : DType × List (List UInt8) :=
  match tensor.shape with
  | count :: width :: _ =>
      (tensor.dtype, reshape count (width * tensor.dtype.itemsize) tensor.data)
  | _ => (tensor.dtype, [])

/-- Both readers return the rows that `read_data_from_file` returns, in every order in which
the reads complete. -/
def ReadsAgree (file : RowFile) (batchSize : Nat) (ids : List Nat) : Prop :=
  (∀ completion, (readDataFromFileConcurrent batchSize completion file.info file.data ids).map
      Tensor.content = (readDataFromFile file.info file.data ids).map Tensor.content) ∧
  ∀ completion, (readDataFromFileConcurrent1 batchSize completion file.info file.data ids).map
      Tensor.content = (readDataFromFile file.info file.data ids).map Tensor.content

/-! ## What is read from a file of rows -/

/-- `read_data_from_file` is the concurrent reader when the reads complete in order. -/
theorem readDataFromFile_inOrder (info : TensorInfo) (bytes : List UInt8) (ids : List Nat) :
    readDataFromFile info bytes ids = readDataFromFileConcurrent 4096 .inOrder info bytes ids :=
  rfl

/-- The elements of a table, cut into rows and put together again. -/
theorem flatten_reshape {β : Type} {count width : Nat} {xs : List β}
    (length : xs.length = count * width) : (reshape count width xs).flatten = xs := by
  induction count generalizing xs with
  | zero =>
      rw [Nat.zero_mul] at length
      rw [List.eq_nil_of_length_eq_zero length]
      rfl
  | succ count ih =>
      have rest : (xs.drop width).length = count * width := by
        rw [List.length_drop, length, Nat.succ_mul, Nat.add_sub_cancel]
      have later := ih rest
      simp only [reshape, List.drop_drop] at later
      simp only [reshape, List.range_succ_eq_map, List.map_cons, List.map_map, List.flatten_cons,
        Nat.zero_mul, List.drop_zero]
      have shifted : ((fun i => (xs.drop (i * width)).take width) ∘ Nat.succ) =
          fun i => (xs.drop (width + i * width)).take width := by
        funext i
        rw [Function.comp_apply, Nat.succ_eq_add_one, Nat.succ_mul, Nat.add_comm]
      rw [shifted, later, List.take_append_drop]

theorem reshape_inj {β : Type} {count width : Nat} {xs ys : List β}
    (first : xs.length = count * width) (second : ys.length = count * width) :
    reshape count width xs = reshape count width ys ↔ xs = ys := by
  constructor
  · intro same
    rw [← flatten_reshape first, same, flatten_reshape second]
  · rintro rfl
    rfl

namespace RowFile

variable (file : RowFile) {ids : List Nat}

theorem rowBytes_pos : 0 < file.rowBytes :=
  Nat.mul_pos file.positive file.dtype.itemsize_pos

theorem memmap_eq :
    memmap file.info file.data = if file.data ≠ [] then some file.data else none := by
  have whole : file.info.shape.prod * file.info.dtype.itemsize = file.data.length := by
    rw [file.sized]
    simp [info, Nat.mul_assoc]
  rw [memmap, whole, List.take_length]
  simp

variable {file}

theorem length_rows (inside : ∀ id ∈ ids, id < file.rows) :
    (ids.flatMap file.row).length = ids.length * file.rowBytes :=
  length_flatMap_mappedRow inside (Nat.le_of_eq file.sized.symm)

theorem readBatch_eq (inside : ∀ id ∈ ids, id < file.rows) :
    readBatch file.info file.data ids = some (ids.flatMap file.row) := by
  simp only [readBatch, info, if_pos inside, List.prod_cons, List.prod_nil, Nat.mul_one]
  rfl

/-- As many bytes as some rows have are returned as rows. -/
theorem reshapeRead_content {count : Nat} {read : List UInt8}
    (length : read.length = count * file.rowBytes) :
    (reshapeRead file.info read).map Tensor.content =
      some (file.dtype, reshape count file.rowBytes read) := by
  have elements : read.length / file.dtype.itemsize = count * file.width := by
    rw [length, rowBytes, ← Nat.mul_assoc, Nat.mul_div_cancel _ file.dtype.itemsize_pos]
  simp only [reshapeRead, info, elements]
  rw [if_pos ⟨file.positive, Nat.dvd_mul_left _ _⟩, Nat.mul_div_cancel _ file.positive]
  rfl

/-- Without rows nothing is asked for. -/
theorem ids_of_empty (inside : ∀ id ∈ ids, id < file.rows) (empty : file.data = []) : ids = [] := by
  have none_ : file.rows * file.rowBytes = 0 := by
    rw [rowBytes, ← file.sized, empty, List.length_nil]
  have rows : file.rows = 0 :=
    (Nat.mul_eq_zero.mp none_).resolve_right (Nat.ne_of_gt file.rowBytes_pos)
  refine List.eq_nil_iff_forall_not_mem.mpr fun id member => ?_
  have early := inside id member
  omega

/-- What `read_data_from_file_concurrent` returns: the batches as they completed. -/
theorem concurrent_content {batchSize : Nat} (positive : 0 < batchSize)
    (completion : Completion (List Nat)) (inside : ∀ id ∈ ids, id < file.rows) :
    (readDataFromFileConcurrent batchSize completion file.info file.data ids).map Tensor.content =
      (memmap file.info file.data).map fun _ => (file.dtype, reshape ids.length file.rowBytes
        ((completion.order (batchesOf batchSize ids.length ids)).flatten.flatMap file.row)) := by
  have whole : (batchesOf batchSize ids.length ids).flatten = ids :=
    batchesOf_flatten positive (Nat.le_refl _)
  have order := (completion.perm (batchesOf batchSize ids.length ids)).flatten
  rw [whole] at order
  rw [readDataFromFileConcurrent, file.memmap_eq]
  split
  · simp only [Option.bind_eq_bind, Option.bind_some, Option.map_some]
    generalize completion.order (batchesOf batchSize ids.length ids) = completed at order ⊢
    have reads : completed.mapM (readBatch file.info file.data) =
        some (completed.map (·.flatMap file.row)) := by
      refine mapM_eq_map fun batch member => readBatch_eq fun id own => inside id ?_
      exact order.mem_iff.mp (List.mem_flatten_of_mem member own)
    rw [reads, Option.bind_some]
    split
    · next empty =>
        obtain rfl : completed = [] := List.map_eq_nil_iff.mp empty
        obtain rfl : ids = [] := List.nil_perm.mp order
        rfl
    · rw [← List.flatMap_def, ← List.flatMap_assoc, List.flatMap_id']
      refine reshapeRead_content ?_
      rw [length_rows fun id member => inside id (order.mem_iff.mp member), order.length_eq]
  · rfl

theorem sequential_content (inside : ∀ id ∈ ids, id < file.rows) :
    (readDataFromFile file.info file.data ids).map Tensor.content =
      (memmap file.info file.data).map fun _ =>
        (file.dtype, reshape ids.length file.rowBytes (ids.flatMap file.row)) := by
  rw [readDataFromFile_inOrder, concurrent_content (by decide) .inOrder inside]
  exact congrArg (fun read : List Nat => (memmap file.info file.data).map fun _ =>
    (file.dtype, reshape ids.length file.rowBytes (read.flatMap file.row)))
    (batchesOf_flatten (by decide) (Nat.le_refl _))

/-! ## The flat array -/

theorem mem_roots {batchSize : Nat} {root : Nat × List Nat} :
    root ∈ roots batchSize ids ↔
      root.1 < ids.length ∧ batchSize ∣ root.1 ∧ root.2 = (ids.drop root.1).take batchSize := by
  obtain ⟨i, batch⟩ := root
  simp only [roots, List.mem_map, List.mem_filter, List.mem_range, decide_eq_true_eq,
    Prod.mk.injEq]
  constructor
  · rintro ⟨own, ⟨early, multiple⟩, rfl, rfl⟩
    exact ⟨early, multiple, rfl⟩
  · rintro ⟨early, multiple, rfl⟩
    exact ⟨i, ⟨early, multiple⟩, rfl, rfl⟩

/-- A batch has the elements of the slice that its read writes. -/
def Lands (file : RowFile) (batchSize count : Nat) (root : Nat × List Nat) : Prop :=
  root.2.length * file.width =
    min (root.1 + batchSize) (count * file.width) - root.1

instance (file : RowFile) (batchSize count : Nat) (root : Nat × List Nat) :
    Decidable (file.Lands batchSize count root) :=
  inferInstanceAs (Decidable (_ = _))

/-- The bytes that a read writes, and where. -/
def write (file : RowFile) (root : Nat × List Nat) : Nat × List UInt8 :=
  (root.1 * file.dtype.itemsize, root.2.flatMap file.row)

theorem roots_inside {batchSize : Nat} {root : Nat × List Nat} (own : root ∈ roots batchSize ids)
    (inside : ∀ id ∈ ids, id < file.rows) : ∀ id ∈ root.2, id < file.rows := by
  intro id member
  rw [(mem_roots.mp own).2.2] at member
  exact inside id (List.mem_of_mem_drop (List.mem_of_mem_take member))

/-- A read writes its rows, or raises and changes nothing. -/
theorem readRoot_eq {batchSize : Nat} (positive : 0 < batchSize) {root : Nat × List Nat}
    {result : List UInt8} (own : root ∈ roots batchSize ids)
    (inside : ∀ id ∈ ids, id < file.rows) (length : result.length = ids.length * file.rowBytes) :
    readRoot file.info file.data batchSize result root =
      if file.Lands batchSize ids.length root then
        splice result (file.write root).1 (file.write root).2
      else result := by
  have width := file.positive
  have itemsize := file.dtype.itemsize_pos
  obtain ⟨early, -, batch⟩ := mem_roots.mp own
  have count : result.length / file.dtype.itemsize = ids.length * file.width := by
    rw [length, rowBytes, ← Nat.mul_assoc, Nat.mul_div_cancel _ itemsize]
  have start : root.1 ≤ ids.length * file.width :=
    Nat.le_trans (Nat.le_of_lt early) (Nat.le_mul_of_pos_right _ width)
  have values : (root.2.flatMap file.row).length = root.2.length * file.width * file.dtype.itemsize := by
    rw [length_rows (roots_inside own inside), rowBytes, Nat.mul_assoc]
  have size : file.info.dtype.itemsize = file.dtype.itemsize := rfl
  simp only [readRoot, readBatch_eq (roots_inside own inside), Option.bind_some, assignSlice, size,
    count, Nat.min_eq_left start, values]
  by_cases lands : file.Lands batchSize ids.length root
  · rw [if_pos lands, if_pos (congrArg (· * file.dtype.itemsize) lands)]
    rfl
  · rw [if_neg lands, if_neg fun same => lands (Nat.eq_of_mul_eq_mul_right itemsize same)]
    -- One value would fill the slice, but then the row has one element and it does land.
    have several : root.2.length * file.width * file.dtype.itemsize ≠ file.dtype.itemsize := by
      intro single
      have one : root.2.length * file.width = 1 :=
        Nat.eq_of_mul_eq_mul_right itemsize (single.trans (Nat.one_mul _).symm)
      have rows := Nat.eq_one_of_mul_eq_one_right one
      have column := Nat.eq_one_of_mul_eq_one_left one
      have shorter := congrArg List.length batch
      rw [List.length_take, List.length_drop, rows] at shorter
      refine lands ?_
      rw [Lands, one, column, Nat.mul_one]
      omega
    rw [if_neg several]
    rfl

/-- A write stays in the array. -/
theorem write_fits {batchSize : Nat} {root : Nat × List Nat} (own : root ∈ roots batchSize ids)
    (inside : ∀ id ∈ ids, id < file.rows) (lands : file.Lands batchSize ids.length root) :
    (file.write root).1 + (file.write root).2.length ≤ ids.length * file.rowBytes := by
  have start : root.1 ≤ ids.length * file.width :=
    Nat.le_trans (Nat.le_of_lt (mem_roots.mp own).1) (Nat.le_mul_of_pos_right _ file.positive)
  have stop : root.1 + root.2.length * file.width ≤ ids.length * file.width := by
    rw [lands]
    omega
  have bytes := Nat.mul_le_mul_right file.dtype.itemsize stop
  rw [write, length_rows (roots_inside own inside), rowBytes, ← Nat.mul_assoc, ← Nat.mul_assoc,
    ← Nat.add_mul]
  exact bytes

/-- All that the reads write, in the order in which they run. -/
def writes (file : RowFile) (batchSize count : Nat) (order : List (Nat × List Nat)) :
    List (Nat × List UInt8) :=
  (order.filter fun root => decide (file.Lands batchSize count root)).map file.write

theorem mem_writes {batchSize count : Nat} {order : List (Nat × List Nat)}
    {write : Nat × List UInt8} :
    write ∈ file.writes batchSize count order ↔
      ∃ root ∈ order, file.Lands batchSize count root ∧ file.write root = write := by
  simp only [writes, List.mem_map, List.mem_filter, decide_eq_true_eq, and_assoc]

theorem foldl_readRoot {batchSize : Nat} (positive : 0 < batchSize)
    {order : List (Nat × List Nat)} {result : List UInt8}
    (own : ∀ root ∈ order, root ∈ roots batchSize ids) (inside : ∀ id ∈ ids, id < file.rows)
    (length : result.length = ids.length * file.rowBytes) :
    order.foldl (readRoot file.info file.data batchSize) result =
      (file.writes batchSize ids.length order).foldl
        (fun whole write => splice whole write.1 write.2) result := by
  induction order generalizing result with
  | nil => rfl
  | cons root order ih =>
      obtain ⟨first, rest⟩ := List.forall_mem_cons.mp own
      rw [List.foldl_cons, readRoot_eq positive first inside length, writes]
      by_cases lands : file.Lands batchSize ids.length root
      · have fits := write_fits first inside lands
        rw [← length] at fits
        rw [if_pos lands, List.filter_cons_of_pos (by simpa using lands),
          List.map_cons, List.foldl_cons, ih rest ((length_splice fits).trans length)]
        rfl
      · rw [if_neg lands, List.filter_cons_of_neg (by simpa using lands), ih rest length]
        rfl

/-- The array after all reads have run. -/
def flat (file : RowFile) (batchSize : Nat) (ids : List Nat)
    (completion : Completion (Nat × List Nat)) : List UInt8 :=
  (file.writes batchSize ids.length (completion.order (roots batchSize ids))).foldl
    (fun whole write => splice whole write.1 write.2)
    (List.replicate (ids.length * file.rowBytes) 0)

theorem writes_fit {batchSize : Nat} {completion : Completion (Nat × List Nat)}
    (inside : ∀ id ∈ ids, id < file.rows) :
    ∀ write ∈ file.writes batchSize ids.length (completion.order (roots batchSize ids)),
      write.1 + write.2.length ≤
        (List.replicate (ids.length * file.rowBytes) (0 : UInt8)).length := by
  intro write member
  obtain ⟨root, own, lands, rfl⟩ := mem_writes.mp member
  rw [List.length_replicate]
  exact write_fits ((completion.perm _).mem_iff.mp own) inside lands

theorem length_flat {batchSize : Nat} {completion : Completion (Nat × List Nat)}
    (inside : ∀ id ∈ ids, id < file.rows) :
    (file.flat batchSize ids completion).length = ids.length * file.rowBytes := by
  rw [flat, length_foldl_splice (writes_fit inside), List.length_replicate]

/-- What `read_data_from_file_concurrent1` returns: the array as the reads left it. -/
theorem concurrent1_content {batchSize : Nat} (positive : 0 < batchSize)
    (completion : Completion (Nat × List Nat)) (inside : ∀ id ∈ ids, id < file.rows) :
    (readDataFromFileConcurrent1 batchSize completion file.info file.data ids).map Tensor.content =
      (memmap file.info file.data).map fun _ =>
        (file.dtype, reshape ids.length file.rowBytes (file.flat batchSize ids completion)) := by
  have read : readDataFromFileConcurrent1 batchSize completion file.info file.data ids =
      (memmap file.info file.data).bind fun data => reshapeRead file.info
        ((completion.order (roots batchSize ids)).foldl (readRoot file.info data batchSize)
          (List.replicate (ids.length * file.rowBytes) 0)) := by
    rw [rowBytes, ← Nat.mul_assoc]
    rfl
  rw [read, file.memmap_eq]
  split
  · rw [Option.bind_some, foldl_readRoot positive (fun root => (completion.perm _).mem_iff.mp)
      inside List.length_replicate]
    exact reshapeRead_content (length_flat inside)
  · rfl

/-! ## When the flat array is right -/

/-- The bytes of a batch stand between those of the ids around it. -/
theorem rows_split {batchSize : Nat} {root : Nat × List Nat} (own : root ∈ roots batchSize ids) :
    ids.flatMap file.row = (ids.take root.1).flatMap file.row ++ root.2.flatMap file.row ++
      ((ids.drop root.1).drop batchSize).flatMap file.row := by
  rw [(mem_roots.mp own).2.2, List.append_assoc, ← List.flatMap_append, List.take_append_drop,
    ← List.flatMap_append, List.take_append_drop]

theorem length_rows_before {batchSize : Nat} {root : Nat × List Nat}
    (own : root ∈ roots batchSize ids) (inside : ∀ id ∈ ids, id < file.rows) :
    ((ids.take root.1).flatMap file.row).length = root.1 * file.rowBytes := by
  rw [length_rows fun id member => inside id (List.mem_of_mem_take member), List.length_take,
    Nat.min_eq_left (Nat.le_of_lt (mem_roots.mp own).1)]

/-- With one column, or with one batch that is long enough, rows are counted as elements
are. -/
theorem lands_of_aligned {batchSize : Nat} {root : Nat × List Nat}
    (aligned : file.width = 1 ∨ ids.length * file.width ≤ batchSize)
    (own : root ∈ roots batchSize ids) :
    file.Lands batchSize ids.length root ∧ root.1 * file.width = root.1 := by
  obtain ⟨early, multiple, batch⟩ := mem_roots.mp own
  have length : root.2.length = min batchSize (ids.length - root.1) := by
    rw [batch, List.length_take, List.length_drop]
  rcases aligned with column | single
  · rw [Lands, column, Nat.mul_one, Nat.mul_one, Nat.mul_one, length]
    exact ⟨by omega, rfl⟩
  · have wide : ids.length ≤ ids.length * file.width := Nat.le_mul_of_pos_right _ file.positive
    have first : root.1 = 0 := Nat.eq_zero_of_dvd_of_lt multiple (by omega)
    rw [Lands, first, length, first, Nat.sub_zero, Nat.min_eq_right (by omega)]
    exact ⟨by omega, Nat.zero_mul _⟩

theorem flat_of_aligned {batchSize : Nat} (positive : 0 < batchSize)
    (completion : Completion (Nat × List Nat)) (inside : ∀ id ∈ ids, id < file.rows)
    (aligned : file.width = 1 ∨ ids.length * file.width ≤ batchSize) :
    file.flat batchSize ids completion = ids.flatMap file.row := by
  have start : ∀ root ∈ roots batchSize ids, (file.write root).1 = root.1 * file.rowBytes := by
    intro root own
    rw [write, rowBytes, ← Nat.mul_assoc, (lands_of_aligned aligned own).2]
  refine foldl_splice_eq ?_ ?_ ?_
  · rw [List.length_replicate, length_rows inside]
  · intro write member
    obtain ⟨root, own, -, rfl⟩ := mem_writes.mp member
    have submitted := (completion.perm _).mem_iff.mp own
    refine ⟨_, _, rows_split submitted, ?_⟩
    rw [length_rows_before submitted inside, start root submitted]
  · intro i bound
    rw [length_rows inside] at bound
    have row : i / file.rowBytes < ids.length := Nat.div_lt_of_lt_mul (Nat.mul_comm _ _ ▸ bound)
    let first := i / file.rowBytes / batchSize * batchSize
    have before : first ≤ i / file.rowBytes := Nat.div_mul_le_self _ _
    have behind : i / file.rowBytes < first + batchSize := Nat.lt_div_mul_add positive
    have submitted : (first, (ids.drop first).take batchSize) ∈ roots batchSize ids :=
      mem_roots.mpr ⟨by omega, Nat.dvd_mul_left _ _, rfl⟩
    refine Or.inr ⟨file.write (first, (ids.drop first).take batchSize), ?_, ?_⟩
    · exact mem_writes.mpr ⟨_, (completion.perm _).mem_iff.mpr submitted,
        (lands_of_aligned aligned submitted).1, rfl⟩
    · have last : i / file.rowBytes < first + ((ids.drop first).take batchSize).length := by
        rw [List.length_take, List.length_drop]
        omega
      rw [start _ submitted, write, length_rows (roots_inside submitted inside), ← Nat.add_mul]
      exact ⟨(Nat.le_div_iff_mul_le file.rowBytes_pos).mp before,
        (Nat.div_lt_iff_lt_mul file.rowBytes_pos).mp last⟩

/-- Elsewhere only a short last batch with the elements of a full slice is written, and
not over its own rows. -/
theorem lands_misplaced {batchSize : Nat} (positive : 0 < batchSize) {root : Nat × List Nat}
    (columns : 2 ≤ file.width) (several : batchSize < ids.length * file.width)
    (own : root ∈ roots batchSize ids) (lands : file.Lands batchSize ids.length root) :
    root.1 + root.2.length = ids.length ∧ root.2.length * file.width = batchSize ∧
      batchSize ≤ root.1 := by
  obtain ⟨early, multiple, batch⟩ := mem_roots.mp own
  have length : root.2.length = min batchSize (ids.length - root.1) := by
    rw [batch, List.length_take, List.length_drop]
  have double : root.1 * 2 ≤ root.1 * file.width := Nat.mul_le_mul_left _ columns
  rw [Lands] at lands
  by_cases full : batchSize ≤ ids.length - root.1
  · -- A full batch has more elements than the slice.
    have more : batchSize * 2 ≤ batchSize * file.width := Nat.mul_le_mul_left _ columns
    rw [length, Nat.min_eq_left full] at lands
    omega
  · have last : root.1 + root.2.length = ids.length := by omega
    have total : ids.length * file.width = root.1 * file.width + root.2.length * file.width := by
      rw [← Nat.add_mul, last]
    have later : root.1 ≠ 0 := by
      intro first
      rw [first, Nat.zero_mul] at total
      omega
    have multiple_ := Nat.le_of_dvd (Nat.pos_of_ne_zero later) multiple
    exact ⟨last, by omega, multiple_⟩

/-- From its own rows on the array is not written. -/
theorem flat_behind {batchSize : Nat} (positive : 0 < batchSize)
    (completion : Completion (Nat × List Nat)) (inside : ∀ id ∈ ids, id < file.rows)
    (columns : 2 ≤ file.width) (several : batchSize < ids.length * file.width)
    {root : Nat × List Nat} (own : root ∈ roots batchSize ids)
    (lands : file.Lands batchSize ids.length root) {i : Nat} (behind : root.1 * file.rowBytes ≤ i) :
    (file.flat batchSize ids completion)[i]? =
      (List.replicate (ids.length * file.rowBytes) 0)[i]? := by
  obtain ⟨last, elements, later⟩ := lands_misplaced positive columns several own lands
  refine getElem?_foldl_splice (writes_fit inside) fun write member => Or.inr ?_
  obtain ⟨other, otherIn, lands', rfl⟩ := mem_writes.mp member
  have submitted := (completion.perm _).mem_iff.mp otherIn
  obtain ⟨last', elements', -⟩ := lands_misplaced positive columns several submitted lands'
  have same : other.2.length = root.2.length :=
    Nat.eq_of_mul_eq_mul_right file.positive (elements'.trans elements.symm)
  have double : root.1 * 2 ≤ root.1 * file.width := Nat.mul_le_mul_left _ columns
  have stop : other.1 + other.2.length * file.width ≤ root.1 * file.width := by omega
  have bytes := Nat.mul_le_mul_right file.dtype.itemsize stop
  rw [Nat.add_mul, Nat.mul_assoc, Nat.mul_assoc, ← rowBytes] at bytes
  rw [write, length_rows (roots_inside submitted inside)]
  exact Nat.le_trans bytes behind

/-- What is neither written nor zero cannot be right: an array that is right has nothing
but zeros. -/
theorem flat_eq_iff_zeros {batchSize : Nat} (positive : 0 < batchSize)
    (completion : Completion (Nat × List Nat)) (inside : ∀ id ∈ ids, id < file.rows)
    (columns : 2 ≤ file.width) (several : batchSize < ids.length * file.width) :
    file.flat batchSize ids completion = ids.flatMap file.row ↔
      ∀ id ∈ ids, ∀ byte ∈ file.row id, byte = 0 := by
  have zeros : (∀ write ∈ file.writes batchSize ids.length
      (completion.order (roots batchSize ids)), ∀ byte ∈ write.2, byte = 0) →
      ∀ byte ∈ file.flat batchSize ids completion, byte = 0 :=
    forall_mem_foldl_splice fun byte member => (List.mem_replicate.mp member).2
  constructor
  · intro right
    have written : ∀ write ∈ file.writes batchSize ids.length
        (completion.order (roots batchSize ids)), ∀ byte ∈ write.2, byte = 0 := by
      intro write member byte byteIn
      obtain ⟨root, own, lands, rfl⟩ := mem_writes.mp member
      have submitted := (completion.perm _).mem_iff.mp own
      change byte ∈ root.2.flatMap file.row at byteIn
      obtain ⟨i, bound, rfl⟩ := List.mem_iff_getElem.mp byteIn
      -- Where the rows hold the byte, the array still has a zero.
      have place : (ids.flatMap file.row)[root.1 * file.rowBytes + i]? =
          some (root.2.flatMap file.row)[i] := by
        rw [rows_split submitted, List.append_assoc, List.getElem?_append_right
          (by rw [length_rows_before submitted inside]; omega),
          length_rows_before submitted inside, Nat.add_sub_cancel_left,
          List.getElem?_append_left bound, List.getElem?_eq_getElem bound]
      have kept := flat_behind positive completion inside columns several submitted lands
        (Nat.le_add_right (root.1 * file.rowBytes) i)
      rw [right, place] at kept
      exact (List.mem_replicate.mp (List.mem_of_getElem? kept.symm)).2
    intro id member byte byteIn
    refine zeros written byte ?_
    rw [right]
    exact List.mem_flatMap.mpr ⟨id, member, byteIn⟩
  · intro rows
    have source : ∀ byte ∈ ids.flatMap file.row, byte = 0 := by
      intro byte member
      obtain ⟨id, idIn, byteIn⟩ := List.mem_flatMap.mp member
      exact rows id idIn byte byteIn
    have written : ∀ write ∈ file.writes batchSize ids.length
        (completion.order (roots batchSize ids)), ∀ byte ∈ write.2, byte = 0 := by
      intro write member byte byteIn
      obtain ⟨root, own, -, rfl⟩ := mem_writes.mp member
      refine source byte ?_
      rw [rows_split ((completion.perm _).mem_iff.mp own)]
      exact List.mem_append_left _ (List.mem_append_right _ byteIn)
    rw [List.eq_replicate_of_mem (zeros written), List.eq_replicate_of_mem source,
      length_flat inside, length_rows inside]

end RowFile

/-! ## When the readers agree -/

theorem map_content_inj {file : RowFile} {count : Nat} {first second : List UInt8}
    (mapped : file.data ≠ [] ∨ count = 0)
    (one : first.length = count * file.rowBytes) (two : second.length = count * file.rowBytes) :
    ((memmap file.info file.data).map fun _ => (file.dtype, reshape count file.rowBytes first)) =
      ((memmap file.info file.data).map fun _ => (file.dtype, reshape count file.rowBytes second)) ↔
    first = second := by
  rw [file.memmap_eq]
  split
  · simp only [Option.map_some, Option.some.injEq, Prod.mk.injEq, true_and]
    exact reshape_inj one two
  · next empty =>
      have none_ : count = 0 := mapped.resolve_left empty
      rw [none_, Nat.zero_mul] at one two
      rw [List.eq_nil_of_length_eq_zero one, List.eq_nil_of_length_eq_zero two]
      exact iff_of_true rfl rfl

/-- The concurrent readers return the rows in the order of the ids, whatever the order of
the reads, exactly if the rows of any two batches can be exchanged, and if rows are counted
as elements are or hold nothing but zeros. -/
theorem readsAgree_iff (file : RowFile) {batchSize : Nat} {ids : List Nat}
    (positive : 0 < batchSize) (inside : ∀ id ∈ ids, id < file.rows) :
    ReadsAgree file batchSize ids ↔
      (∀ batch ∈ batchesOf batchSize ids.length ids, ∀ other ∈ batchesOf batchSize ids.length ids,
        (batch ++ other).flatMap file.row = (other ++ batch).flatMap file.row) ∧
      (file.width = 1 ∨ ids.length * file.width ≤ batchSize ∨
        ∀ id ∈ ids, ∀ byte ∈ file.row id, byte = 0) := by
  have whole : (batchesOf batchSize ids.length ids).flatten = ids :=
    batchesOf_flatten positive (Nat.le_refl _)
  have mapped : file.data ≠ [] ∨ ids.length = 0 := by
    by_cases empty : file.data = []
    · exact Or.inr (congrArg List.length (RowFile.ids_of_empty inside empty))
    · exact Or.inl empty
  have gathered : ∀ completed : List (List Nat),
      completed.Perm (batchesOf batchSize ids.length ids) →
      (completed.flatten.flatMap file.row).length = ids.length * file.rowBytes := by
    intro completed order
    have ordered := order.flatten
    rw [whole] at ordered
    rw [RowFile.length_rows fun id member => inside id (ordered.mem_iff.mp member),
      ordered.length_eq]
  rw [ReadsAgree]
  simp only [RowFile.concurrent_content positive _ inside,
    RowFile.concurrent1_content positive _ inside, RowFile.sequential_content inside]
  refine and_congr ?_ ?_
  · rw [← flatMap_flatten_perm_iff, whole]
    constructor
    · intro same completed order
      have own := same (.only order)
      rw [Completion.only_order] at own
      exact (map_content_inj mapped (gathered completed order)
        (RowFile.length_rows inside)).mp own
    · intro same completion
      exact congrArg (fun read => (memmap file.info file.data).map fun _ =>
        (file.dtype, reshape ids.length file.rowBytes read)) (same _ (completion.perm _))
  · refine (forall_congr' fun completion => map_content_inj mapped (RowFile.length_flat inside)
      (RowFile.length_rows inside)).trans ?_
    by_cases aligned : file.width = 1 ∨ ids.length * file.width ≤ batchSize
    · constructor
      · intro _
        rw [← or_assoc]
        exact Or.inl aligned
      · intro _ completion
        exact RowFile.flat_of_aligned positive completion inside aligned
    · have columns : 2 ≤ file.width := by
        have column := file.positive
        omega
      refine (forall_congr' fun completion => RowFile.flat_eq_iff_zeros positive completion inside
        columns (by omega)).trans ?_
      rw [← or_assoc]
      constructor
      · intro same
        exact Or.inr (same .inOrder)
      · intro condition _
        exact condition.resolve_left aligned

/-- Two rows of two elements. -/
def RowFile.pairs : RowFile := ⟨.uint8, 2, 2, [1, 2, 3, 4], Nat.two_pos, by decide⟩

/-- One batch of three rows. -/
theorem readsAgree_three : ReadsAgree .pairs 8 [1, 0, 1] :=
  (readsAgree_iff .pairs (by decide) (by decide)).mpr
    ⟨by decide, Or.inr (Or.inl (by decide))⟩

/-- Two batches of one row: the first reader has them exchanged when the second completes
first, the other has only zeros. -/
theorem readsAgree_not_two :
    (readDataFromFileConcurrent 1 .backwards RowFile.pairs.info RowFile.pairs.data [0, 1]).map
        Tensor.content = some (.uint8, [[3, 4], [1, 2]]) ∧
    (readDataFromFileConcurrent1 1 .inOrder RowFile.pairs.info RowFile.pairs.data [0, 1]).map
        Tensor.content = some (.uint8, [[0, 0], [0, 0]]) ∧
    (readDataFromFile RowFile.pairs.info RowFile.pairs.data [0, 1]).map Tensor.content =
      some (.uint8, [[1, 2], [3, 4]]) ∧
    ¬ ReadsAgree .pairs 1 [0, 1] := by
  refine ⟨by decide, by decide, by decide, fun agree => ?_⟩
  exact absurd (agree.1 .backwards) (by decide)

end Dolphin.Store
