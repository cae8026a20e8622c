import Dolphin.Semantics.Heap
import Dolphin.Store.SaveBin

/-!
# `select_index` and `update_index`

The main process reads and writes rows of the worker's tables. The rows travel through one
tensor of elements, which both processes keep a reference to: `share_tmp_tensor` and
`share_tmp`. Either of them is rebound by `.to(dtype)` before it is written, and stays the
shared tensor only while it already has that element type.
-/

namespace Dolphin.Buffer.IndexCalls

open Dolphin.Semantics Dolphin.Store

variable {α : Type*}

/-- How elements change their type; unchanged where the type is the same. -/
structure Conversion (α : Type*) where
  cast : DType → DType → α → α
  same : ∀ dtype x, cast dtype dtype x = x

/-- A tensor and its elements in row order. -/
structure Tensor (α : Type*) where
  dtype : DType
  dim : List Nat
  data : List α
  deriving DecidableEq

/-- A table of the worker; every row has the shape `row`. -/
structure Table (α : Type*) where
  dtype : DType
  row : List Nat
  rows : List (List α)
  deriving DecidableEq

/-- `self_v[indices]`. -/
def Table.select (table : Table α) (indices : List Nat) : Option (Tensor α) :=
  (indices.mapM (table.rows[·]?)).map fun rows =>
    ⟨table.dtype, indices.length :: table.row, rows.flatten⟩

/-- Row `i` of the given values. -/
def valueRow (table : Table α) (value : Tensor α) (i : Nat) : List α :=
  (value.data.drop (i * table.row.prod)).take table.row.prod

/-- The table has rows at the indices, and the values have their shape. -/
def Table.Takes (table : Table α) (indices : List Nat) (value : Tensor α) : Prop :=
  value.dim = indices.length :: table.row ∧ ∀ index ∈ indices, index < table.rows.length

instance (table : Table α) (indices : List Nat) (value : Tensor α) :
    Decidable (table.Takes indices value) :=
  inferInstanceAs (Decidable (_ ∧ _))

/-- `self_v[indices] = value`, for values of the shape of the rows. An assignment through an
index tensor raises unless the element types are the same. -/
def Table.assign (table : Table α) (indices : List Nat) (value : Tensor α) : Option (Table α) :=
  if table.Takes indices value ∧ value.dtype = table.dtype then
    some
      { table with
        rows := indices.zipIdx.foldl
          (fun rows write => rows.set write.1 (valueRow table value write.2)) table.rows }
  else none

/-- The tables of the worker, by name. -/
abbrev Tables (α : Type*) := String → Option (Table α)

/-- A call of the main process on a table that only the worker has. -/
inductive Call (α : Type*) where
  | select (name : String) (indices : List Nat)
  | update (name : String) (indices : List Nat) (value : Tensor α)

/-! ## Direct access -/

/-- The result of a call and the tables after it, without a second process. -/
def direct (tables : Tables α) : Call α → Option (Option (Tensor α) × Tables α)
  | .select name indices => do
      let table ← tables name
      let res ← table.select indices
      some (some res, tables)
  | .update name indices value => do
      let table ← tables name
      let table ← table.assign indices value
      some (none, Function.update tables name (some table))

/-! ## Through the shared tensor -/

/-- A tensor that rows travel through. -/
structure Share (α : Type*) where
  dtype : DType
  cells : List α

/-- Both processes: the tensors, the references of the two, and the tables. -/
structure Processes (α : Type*) where
  tensors : Heap (Share α)
  shareTmpTensor : Nat
  shareTmp : Nat
  tables : Tables α

/-- `torch.zeros(tmp_tensor_num).share_memory_()`, which both processes refer to. -/
def initial (zero : α) (tmpTensorNum : Nat) (tables : Tables α) : Processes α where
  tensors := ⟨fun _ => ⟨.float32, List.replicate tmpTensorNum zero⟩, 1⟩
  shareTmpTensor := 0
  shareTmp := 0
  tables := tables

/-- `share.to(dtype)`. -/
def toDType (conversion : Conversion α) (tensors : Heap (Share α)) (ref : Nat) (dtype : DType) :
    Heap (Share α) × Nat :=
  tensors.convert ref (fun share => decide (share.dtype = dtype)) fun share =>
    ⟨dtype, share.cells.map (conversion.cast share.dtype dtype)⟩

/-- `share[:shape] = value`; too many values do not fit. -/
def write (conversion : Conversion α) (tensors : Heap (Share α)) (ref : Nat) (value : Tensor α) :
    Option (Heap (Share α)) :=
  let share := tensors.object ref
  if value.data.length ≤ share.cells.length then
    some (tensors.set ref
      ⟨share.dtype, value.data.map (conversion.cast value.dtype share.dtype) ++
        share.cells.drop value.data.length⟩)
  else none

/-- `share[:shape].reshape(dim)`, with the shape and the dimensions of a tensor. -/
def read (tensors : Heap (Share α)) (ref : Nat) (like : Tensor α) : Tensor α :=
  ⟨(tensors.object ref).dtype, like.dim, (tensors.object ref).cells.take like.data.length⟩

/-- `select_index` of both processes. -/
def selectIndex (conversion : Conversion α) (state : Processes α) (name : String)
    (indices : List Nat) : Option (Tensor α × Processes α) := do
  let table ← state.tables name
  let res ← table.select indices
  let (tensors, shareTmp) := toDType conversion state.tensors state.shareTmp res.dtype
  let tensors ← write conversion tensors shareTmp res
  some (read tensors state.shareTmpTensor res, { state with tensors, shareTmp })

/-- `update_index` of both processes. -/
def updateIndex (conversion : Conversion α) (state : Processes α) (name : String)
    (indices : List Nat) (value : Tensor α) : Option (Processes α) := do
  let (tensors, shareTmpTensor) :=
    toDType conversion state.tensors state.shareTmpTensor value.dtype
  let tensors ← write conversion tensors shareTmpTensor value
  let table ← state.tables name
  let table ← table.assign indices (read tensors state.shareTmp value)
  some
    { state with
      tensors, shareTmpTensor, tables := Function.update state.tables name (some table) }

/-- The result of a call and both processes after it. -/
def call (conversion : Conversion α) (state : Processes α) :
    Call α → Option (Option (Tensor α) × Processes α)
  | .select name indices =>
      (selectIndex conversion state name indices).map fun ended => (some ended.1, ended.2)
  | .update name indices value =>
      (updateIndex conversion state name indices value).map fun ended => (none, ended)

/-- Some calls, one after the other. -/
def run (conversion : Conversion α) (state : Processes α) (calls : List (Call α)) :
    Option (Processes α) :=
  calls.foldlM (fun state next => (call conversion state next).map Prod.snd) state

/-- A call succeeds, and does what direct access does. -/
def Right (conversion : Conversion α) (state : Processes α) (next : Call α) : Prop :=
  ∃ result after, call conversion state next = some (result, after) ∧
    direct state.tables next = some (result, after.tables)

/-- Every call of a sequence does what direct access does. -/
def Refines (conversion : Conversion α) (state : Processes α) (calls : List (Call α)) : Prop :=
  ∀ early next late, calls = early ++ next :: late →
    ∀ reached, run conversion state early = some reached → Right conversion reached next

/-! ## What a call is given -/

/-- The call is for rows that the worker has, with values of their shape, and what it
transfers fits the shared tensor. -/
def Fits (tmpTensorNum : Nat) (tables : Tables α) : Call α → Prop
  | .select name indices => ∃ table res, tables name = some table ∧
      table.select indices = some res ∧ res.data.length ≤ tmpTensorNum
  | .update name indices value => ∃ table, tables name = some table ∧
      table.Takes indices value ∧ value.data.length ≤ tmpTensorNum

/-- The element types of the tables. -/
def types (tables : Tables α) (name : String) : Option DType := (tables name).map Table.dtype

/-- The table of the call has `float32` elements, and the given values too. -/
def OnFloats (tables : Tables α) : Call α → Prop
  | .select name _ => types tables name = some .float32
  | .update name _ value => types tables name = some .float32 ∧ value.dtype = .float32

end Dolphin.Buffer.IndexCalls
