import Mathlib.Algebra.Order.Ring.Nat
import Mathlib.Data.List.Basic
import Mathlib.Logic.Function.Basic

/-!
# The binary tensor store

`saveBin`, `loadConf`, `loadBin` and `flush_saveBin_conf`. A tensor is written
as its raw elements; its shape and element type go to the `saveBinConf.json` of
its directory. The write side keeps that configuration in `conf_dic` and stores
it when flushed; the read side caches it in `confs`. Both caches belong to one
process, so `BinStore.freshProcess` forgets them and keeps the disk.

A file is a list of bytes. The `device` entry of the configuration is left out:
it decides where the loaded tensor lives, not what it holds.
-/

namespace Dolphin.Store

/-! ## Strings -/

/-- `str.replace` on characters; the counter skips the rest of a match. -/
def replaceFrom (old new : List Char) : Nat → List Char → List Char
  | _, [] => []
  | skip + 1, _ :: rest => replaceFrom old new skip rest
  | 0, char :: rest =>
      if old.isPrefixOf (char :: rest) then new ++ replaceFrom old new (old.length - 1) rest
      else char :: replaceFrom old new 0 rest

/-- `text.replace(old, new)` for a nonempty `old`. -/
def replace (text old new : String) : String :=
  String.ofList (replaceFrom old.toList new.toList 0 text.toList)

/-- `part in text`. -/
def contains (text part : String) : Bool :=
  text.toList.tails.any fun suffix => part.toList.isPrefixOf suffix

/-- `os.path.dirname`: up to the last slash, without the slashes at the end unless there
is nothing else. -/
def dirname (path : String) : String :=
  let head := path.toList.reverse.dropWhile (· ≠ '/')
  String.ofList (if head.all (· = '/') then head else head.dropWhile (· = '/')).reverse

/-- The name under which `saveBin` and `loadBin` use a path. -/
def binPath (path : String) : String := replace path ".pt" ".bin"

/-! ## Tensors and their configuration -/

/-- The element types that both libraries have. -/
inductive DType where
  | bool | uint8 | int8 | int16 | float16 | int32 | float32 | int64 | float64
  | complex64 | complex128
  deriving DecidableEq, Repr

/-- Bytes of one element. -/
def DType.itemsize : DType → Nat
  | .bool | .uint8 | .int8 => 1
  | .int16 | .float16 => 2
  | .int32 | .float32 => 4
  | .int64 | .float64 | .complex64 => 8
  | .complex128 => 16

theorem DType.itemsize_pos (dtype : DType) : 0 < dtype.itemsize := by
  cases dtype <;> decide

/-- A tensor as it is stored: its raw elements in row order. -/
structure Tensor where
  dtype : DType
  shape : List Nat
  data : List UInt8
  deriving DecidableEq

/-- One entry of `saveBinConf.json`. -/
structure TensorInfo where
  dtype : DType
  shape : List Nat
  deriving DecidableEq

/-- The entries of one `saveBinConf.json`, by path. -/
abbrev Conf := String → Option TensorInfo

/-- The files of the disk and the two configuration caches of a process. -/
structure BinStore where
  files : String → Option (List UInt8)
  /-- `saveBinConf.json`, by directory. -/
  json : String → Option Conf
  /-- The write side's `conf_dic`, by directory. -/
  confDic : String → Option Conf
  /-- The read side's `confs`, by directory. -/
  confs : String → Option Conf

/-- A process that starts on the same disk. -/
def BinStore.freshProcess (store : BinStore) : BinStore :=
  { store with confDic := fun _ => none, confs := fun _ => none }

/-- `flush_saveBin_conf`: every cached configuration is written to its file. -/
def flushSaveBinConf (store : BinStore) : BinStore :=
  { store with json := fun dir => (store.confDic dir).or (store.json dir) }

/-- The configuration `saveBin` starts from: the cached one, else the file's,
else an empty one. -/
def BinStore.config (store : BinStore) (dir : String) : Conf :=
  (store.confDic dir).getD ((store.json dir).getD fun _ => none)

/-- The entry a path has in the configuration of its directory. -/
def BinStore.entry (store : BinStore) (path : String) : Option TensorInfo :=
  store.config (dirname path) path

/-- `tensor_info['shape'][0] += config[savePath]['shape'][0]`. -/
def addRows : List Nat → List Nat → List Nat
  | rows :: shape, before :: _ => (rows + before) :: shape
  | shape, _ => shape

/-- The entry `saveBin` writes for a tensor. -/
def tensorInfo (tensor : Tensor) (addSave : Bool) (previous : Option TensorInfo) : TensorInfo :=
  match addSave, previous with
  | true, some info => ⟨tensor.dtype, addRows tensor.shape info.shape⟩
  | _, _ => ⟨tensor.dtype, tensor.shape⟩

/-- The bytes `saveBin` leaves in the file. -/
def savedBytes (tensor : Tensor) (addSave : Bool) (previous : Option (List UInt8)) : List UInt8 :=
  if addSave then previous.getD [] ++ tensor.data else tensor.data

/-- The store after the configuration entry and the file of one save. -/
def BinStore.write (store : BinStore) (tensor : Tensor) (savePath : String) (addSave : Bool) :
    BinStore :=
  let info := tensorInfo tensor addSave (store.entry savePath)
  let config := Function.update (store.config (dirname savePath)) savePath (some info)
  { store with
    confDic := Function.update store.confDic (dirname savePath) (some config)
    files := Function.update store.files savePath
      (some (savedBytes tensor addSave (store.files savePath))) }

/-- `saveBin(tensor, savePath, addSave)` without `use_pt`. Only paths without
`part` in them flush the configuration at once. -/
def saveBin (store : BinStore) (tensor : Tensor) (path : String) (addSave : Bool) : BinStore :=
  if contains (binPath path) "part" then store.write tensor (binPath path) addSave
  else flushSaveBinConf (store.write tensor (binPath path) addSave)

/-- The exceptions of `loadConf` and `loadBin`. -/
inductive LoadError where
  | noConf | noFile | badShape
  deriving DecidableEq

/-- `loadConf(path)`: the configuration of the path's directory is read and cached. -/
def loadConf (store : BinStore) (path : String) : Except LoadError BinStore :=
  match store.json (dirname path) with
  | none => .error .noConf
  | some conf => .ok { store with confs := Function.update store.confs (dirname path) (some conf) }

/-- The element type `loadBin` returns: `float16` is widened outside MAG paths.
Widening keeps every value, so `Tensor.data` keeps the stored elements. -/
def loadedDType (dtype : DType) (path : String) : DType :=
  if dtype = .float16 ∧ contains path "MAG" = false then .float32 else dtype

/-- `np.fromfile(...).reshape(shape)`: whole elements only, and as many as the
shape asks for. -/
def reshaped (info : TensorInfo) (bytes : List UInt8) : Option (List UInt8) :=
  if bytes.length / info.dtype.itemsize = info.shape.prod then
    some (bytes.take (info.shape.prod * info.dtype.itemsize))
  else none

/-- `loadBin(path)`; `none` where the configuration does not name the path. -/
def loadBin (store : BinStore) (path : String) : Except LoadError (Option Tensor × BinStore) := do
  let path := binPath path
  let store ← if (store.confs (dirname path)).isSome then pure store else loadConf store path
  match (store.confs (dirname path)).bind (· path) with
  | none => pure (none, store)
  | some info =>
      match store.files path with
      | none => throw .noFile
      | some bytes =>
          match reshaped info bytes with
          | none => throw .badShape
          | some data => pure (some ⟨loadedDType info.dtype path, info.shape, data⟩, store)

/-! ## What one save changes -/

@[simp] theorem flushSaveBinConf_files (store : BinStore) :
    (flushSaveBinConf store).files = store.files := rfl

/-- Flushing changes no entry a later save sees. -/
@[simp] theorem flushSaveBinConf_entry (store : BinStore) (path : String) :
    (flushSaveBinConf store).entry path = store.entry path := by
  unfold BinStore.entry BinStore.config flushSaveBinConf
  cases cached : store.confDic (dirname path) <;> simp [cached]

/-- A save writes its own file and no other. -/
theorem saveBin_files (store : BinStore) (tensor : Tensor) (path : String) (addSave : Bool) :
    (saveBin store tensor path addSave).files =
      Function.update store.files (binPath path)
        (some (savedBytes tensor addSave (store.files (binPath path)))) := by
  unfold saveBin
  split <;> rfl

theorem BinStore.write_entry (store : BinStore) (tensor : Tensor) (savePath other : String)
    (addSave : Bool) :
    (store.write tensor savePath addSave).entry other =
      Function.update store.entry savePath
        (some (tensorInfo tensor addSave (store.entry savePath))) other := by
  unfold BinStore.write
  by_cases same : other = savePath
  · subst same
    simp [BinStore.entry, BinStore.config]
  · by_cases dir : dirname other = dirname savePath
    · simp [BinStore.entry, BinStore.config, dir, same]
    · simp [BinStore.entry, BinStore.config, dir, same]

/-- A save writes its own entry and no other, flushed or not. -/
theorem saveBin_entry (store : BinStore) (tensor : Tensor) (path : String) (addSave : Bool) :
    (saveBin store tensor path addSave).entry =
      Function.update store.entry (binPath path)
        (some (tensorInfo tensor addSave (store.entry (binPath path)))) := by
  funext other
  unfold saveBin
  split
  · exact store.write_entry tensor (binPath path) other addSave
  · rw [flushSaveBinConf_entry, store.write_entry tensor (binPath path) other addSave]

/-- After the flush the configuration file has the entry. -/
theorem flushSaveBinConf_json {store : BinStore} {path : String} {info : TensorInfo}
    (entry : store.entry path = some info) :
    ∃ conf, (flushSaveBinConf store).json (dirname path) = some conf ∧ conf path = some info := by
  unfold BinStore.entry BinStore.config at entry
  cases cached : store.confDic (dirname path) with
  | some conf => exact ⟨conf, by simp [flushSaveBinConf, cached], by simpa [cached] using entry⟩
  | none =>
      cases stored : store.json (dirname path) with
      | none => simp [cached, stored] at entry
      | some conf =>
          exact ⟨conf, by simp [flushSaveBinConf, cached, stored],
            by simpa [cached, stored] using entry⟩

/-- A process that starts after the flush loads what the entry describes. -/
theorem loadBin_freshProcess {store : BinStore} {path : String} {info : TensorInfo}
    {bytes data : List UInt8} (entry : store.entry (binPath path) = some info)
    (file : store.files (binPath path) = some bytes) (shape : reshaped info bytes = some data) :
    ∃ after, loadBin (flushSaveBinConf store).freshProcess path =
      .ok (some ⟨loadedDType info.dtype (binPath path), info.shape, data⟩, after) := by
  obtain ⟨conf, json, found⟩ := flushSaveBinConf_json entry
  refine ⟨{ (flushSaveBinConf store).freshProcess with
    confs := Function.update (fun _ => none) (dirname (binPath path)) (some conf) }, ?_⟩
  simp [loadBin, BinStore.freshProcess, loadConf, json, found, file, shape, bind, Except.bind,
    pure, Except.pure]

end Dolphin.Store
