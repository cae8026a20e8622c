import Dolphin.Memory.DiskMemory
import Dolphin.Store.SaveBin

/-!
# A process that saves and loads

The calls of the binary store in any order. A load takes the configuration of the path's
directory from `confs` when it is there, whatever has been saved since. `loadBinDisk` reads
single rows through a memory map.
-/

namespace Dolphin.Store

open Dolphin.Memory

/-! ## `loadBinDisk` -/

/-- `getattr(np, name)`; not every NumPy has `np.bool`. -/
def npType (numpyBool : Bool) (dtype : DType) : Option DType :=
  if dtype = .bool ∧ numpyBool = false then none else some dtype

/-- `np.memmap(path, dtype, mode='r', shape)`: an empty file cannot be mapped, nor one that
is too short. -/
def memmap (info : TensorInfo) (bytes : List UInt8) : Option (List UInt8) :=
  if bytes ≠ [] ∧ info.shape.prod * info.dtype.itemsize ≤ bytes.length then
    some (bytes.take (info.shape.prod * info.dtype.itemsize))
  else none

/-- Row `id` of a mapped table. -/
def mappedRow (rowBytes : Nat) (data : List UInt8) (id : Nat) : List UInt8 :=
  (data.drop (id * rowBytes)).take rowBytes

/-- `data[batch_indices, :].reshape(-1)`: the table has two dimensions at least, and the
rows exist. -/
def readBatch (info : TensorInfo) (data : List UInt8) (batch : List Nat) : Option (List UInt8) :=
  match info.shape with
  | rows :: width :: rest =>
      if ∀ id ∈ batch, id < rows then
        some (batch.flatMap (mappedRow ((width :: rest).prod * info.dtype.itemsize) data))
      else none
  | _ => none

/-- `torch.cat(result, dim=0).reshape(-1, shape[1])`. -/
def reshapeRead (info : TensorInfo) (read : List UInt8) : Option Tensor :=
  match info.shape with
  | _ :: width :: _ =>
      let elements := read.length / info.dtype.itemsize
      if 0 < width ∧ width ∣ elements then some ⟨info.dtype, [elements / width, width], read⟩
      else none
  | _ => none

/-- `read_data_from_file(path, indices, shape, dtype)`, in batches of 4096 rows. -/
def readDataFromFile (info : TensorInfo) (bytes : List UInt8) (indices : List Nat) :
    Option Tensor := do
  let data ← memmap info bytes
  let result ← (batchesOf 4096 indices.length indices).mapM (readBatch info data)
  if result = [] then some ⟨info.dtype, [0], []⟩ else reshapeRead info result.flatten

/-- `if directory not in confs: loadConf(path)`. -/
def BinStore.cacheConf (store : BinStore) (path : String) : BinStore :=
  match store.confs (dirname path), store.json (dirname path) with
  | none, some conf => { store with confs := Function.update store.confs (dirname path) (some conf) }
  | _, _ => store

/-- `loadBinDisk(path, ind)`; `none` where it raises. -/
def loadBinDisk (numpyBool : Bool) (store : BinStore) (path : String) (ind : List Nat) :
    Option Tensor := do
  let path := binPath path
  let conf ← (store.cacheConf path).confs (dirname path)
  let info ← conf path
  let dtype ← npType numpyBool info.dtype
  let bytes ← store.files path
  let read ← readDataFromFile ⟨dtype, info.shape⟩ bytes ind
  some { read with dtype := loadedDType read.dtype path }

/-! ## Calls -/

/-- A tensor has as many bytes as its shape and element type ask for. -/
structure SizedTensor extends Tensor where
  sized : data.length = shape.prod * dtype.itemsize

/-- A call of the store. -/
inductive Op where
  | saveBin (tensor : SizedTensor) (path : String) (addSave : Bool)
  | flushSaveBinConf
  | loadConf (path : String)
  | loadBin (path : String)
  | loadBinDisk (path : String) (ind : List Nat)

/-- `saveBin` raises before it changes anything: there is no directory to make, or no row
count to add to. -/
def SaveRaises (store : BinStore) (tensor : Tensor) (path : String) (addSave : Bool) : Prop :=
  dirname (binPath path) = "" ∨
    addSave = true ∧ ∃ info ∈ store.entry (binPath path), tensor.shape = [] ∨ info.shape = []

instance (store : BinStore) (tensor : Tensor) (path : String) (addSave : Bool) :
    Decidable (SaveRaises store tensor path addSave) :=
  inferInstanceAs (Decidable (_ ∨ _ ∧ _))

/-- What a call does to the store, also where it raises. -/
def perform (store : BinStore) : Op → BinStore
  | .saveBin tensor path addSave =>
      if SaveRaises store tensor.toTensor path addSave then store
      else saveBin store tensor.toTensor path addSave
  | .flushSaveBinConf => Dolphin.Store.flushSaveBinConf store
  | .loadConf path => (Dolphin.Store.loadConf store path).toOption.getD store
  | .loadBin path | .loadBinDisk path _ => store.cacheConf (binPath path)

/-- A process that starts on a disk, makes some calls and flushes. -/
def session (disk : BinStore) (ops : List Op) : BinStore :=
  flushSaveBinConf (ops.foldl perform disk.freshProcess)

/-! ## What was saved -/

/-- The rows of one tensor and then those of another. -/
def Tensor.concat (before after : Tensor) : Tensor :=
  ⟨after.dtype, addRows after.shape before.shape, before.data ++ after.data⟩

/-- What a save leaves under its path. -/
def Tensor.saved (tensor : Tensor) (addSave : Bool) (before : Option Tensor) : Tensor :=
  match addSave, before with
  | true, some before => before.concat tensor
  | _, _ => tensor

/-- What has been saved under a path after a call. -/
def track (path : String) (before : Option Tensor) : Op → Option Tensor
  | .saveBin tensor other addSave =>
      if binPath other = path ∧ dirname path ≠ "" then
        some (tensor.toTensor.saved addSave before)
      else before
  | _ => before

/-- The tensor of the last plain save under a path and of all `addSave` calls since. -/
def written (path : String) (ops : List Op) : Option Tensor := ops.foldl (track path) none

/-- Element type and trailing shape are the same. -/
def SameRows (before after : Tensor) : Prop :=
  before.dtype = after.dtype ∧ before.shape ≠ [] ∧ after.shape ≠ [] ∧
    before.shape.tail = after.shape.tail

/-- An `addSave` call under a path keeps the rows, and starts a file only where there is
none. -/
def Op.Appends (disk : BinStore) (path : String) (before : Option Tensor) : Op → Prop
  | .saveBin tensor other true =>
      binPath other = path →
        match before with
        | some old => SameRows old tensor.toTensor
        | none => disk.files path = none ∧ disk.freshProcess.entry path = none
  | _ => True

/-- All `addSave` calls under a path keep the rows. -/
def Appends (disk : BinStore) (path : String) : Option Tensor → List Op → Prop
  | _, [] => True
  | before, op :: ops =>
      op.Appends disk path before ∧ Appends disk path (track path before op) ops

/-! ## What is to be returned -/

/-- The tensor as `loadBin` returns it. -/
def Tensor.loaded (tensor : Tensor) (path : String) : Tensor :=
  { tensor with dtype := loadedDType tensor.dtype path }

/-- Some rows of a tensor, each of a given shape. -/
def Tensor.rows (tensor : Tensor) (row : List Nat) (ids : List Nat) : Tensor :=
  ⟨tensor.dtype, ids.length :: row,
    ids.flatMap (mappedRow (row.prod * tensor.dtype.itemsize) tensor.data)⟩

/-- The entry that a load finds for a saved tensor: the cached one, else what the flush
wrote. -/
def BinStore.found (store : BinStore) (path : String) (tensor : Tensor) : Option TensorInfo :=
  match store.confs (dirname path) with
  | some conf => conf path
  | none => some ⟨tensor.dtype, tensor.shape⟩

/-- The entry is the one of the tensor, up to the element type of no elements. -/
def TensorInfo.Describes (info : TensorInfo) (tensor : Tensor) (path : String) : Prop :=
  info.shape = tensor.shape ∧ loadedDType info.dtype path = loadedDType tensor.dtype path ∧
    (tensor.data ≠ [] → info.dtype = tensor.dtype)

/-- The entry lets `loadBinDisk` read some rows: there are elements, the entry has no more
than there are, and it has the rows of the table. No rows come back without a shape. -/
def TensorInfo.Reaches (info : TensorInfo) (tensor : Tensor) (path : String) (row ids : List Nat) :
    Prop :=
  tensor.data ≠ [] ∧ info.shape.prod * info.dtype.itemsize ≤ tensor.data.length ∧
    (ids = [] ∧ row = [] ∧ loadedDType info.dtype path = loadedDType tensor.dtype path ∨
      ids ≠ [] ∧ info.dtype = tensor.dtype ∧ ∃ rows width rest, info.shape = rows :: width :: rest ∧
        rest.prod = 1 ∧ row = [width] ∧ ∀ id ∈ ids, id < rows)

end Dolphin.Store
