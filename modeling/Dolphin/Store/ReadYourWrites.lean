import Mathlib.Tactic.Ring
import Dolphin.Memory.DiskRows
import Dolphin.Store.BinSession

/-!
# Reading what was saved

In every session the file and the write side's entry of a path hold what was saved under
it, whatever happens to other paths. A load returns that exactly if the configuration it
finds for the directory agrees, and this may be one that was cached before the last save.
-/

namespace Dolphin.Store

open Dolphin.Memory

/-! ## The files of a session -/

/-- The entry of the write side does not depend on what the read side caches. -/
theorem entry_withConfs (store : BinStore) (confs : String → Option Conf) (other : String) :
    ({ store with confs := confs } : BinStore).entry other = store.entry other :=
  rfl

theorem files_withConfs (store : BinStore) (confs : String → Option Conf) :
    ({ store with confs := confs } : BinStore).files = store.files :=
  rfl

/-- A configuration that is cached for one directory is none of another's. -/
theorem confs_update_of_ne {store : BinStore} {dir other : String} (conf : Conf)
    (different : other ≠ dir) :
    ({ store with confs := Function.update store.confs other (some conf) } : BinStore).confs dir =
      store.confs dir :=
  Function.update_of_ne (Ne.symm different) _ _

theorem cacheConf_files (store : BinStore) (path : String) :
    (store.cacheConf path).files = store.files := by
  unfold BinStore.cacheConf
  split
  · exact files_withConfs store _
  · rfl

theorem cacheConf_entry (store : BinStore) (path other : String) :
    (store.cacheConf path).entry other = store.entry other := by
  unfold BinStore.cacheConf
  split
  · exact entry_withConfs store _ other
  · rfl

theorem loadConf_files (store : BinStore) (path : String) :
    ((loadConf store path).toOption.getD store).files = store.files := by
  unfold loadConf
  split
  · rfl
  · exact files_withConfs store _

theorem loadConf_entry (store : BinStore) (path other : String) :
    ((loadConf store path).toOption.getD store).entry other = store.entry other := by
  unfold loadConf
  split
  · rfl
  · exact entry_withConfs store _ other

/-- The file and the entry of a path hold what was saved, or what was there before. -/
def Holds (disk : BinStore) (path : String) (saved : Option Tensor) (store : BinStore) : Prop :=
  match saved with
  | none =>
      store.files path = disk.files path ∧ store.entry path = disk.freshProcess.entry path
  | some tensor =>
      store.files path = some tensor.data ∧ store.entry path = some ⟨tensor.dtype, tensor.shape⟩ ∧
        tensor.data.length = tensor.shape.prod * tensor.dtype.itemsize

theorem Holds.congr {disk : BinStore} {path : String} {saved : Option Tensor}
    {store next : BinStore} (holds : Holds disk path saved store)
    (files : next.files path = store.files path) (entry : next.entry path = store.entry path) :
    Holds disk path saved next := by
  cases saved with
  | none => exact ⟨files.trans holds.1, entry.trans holds.2⟩
  | some tensor => exact ⟨files.trans holds.1, entry.trans holds.2.1, holds.2.2⟩

/-- The rows of two sized tensors make a sized tensor. -/
theorem concat_sized {before after : Tensor} (same : SameRows before after)
    (early : before.data.length = before.shape.prod * before.dtype.itemsize)
    (late : after.data.length = after.shape.prod * after.dtype.itemsize) :
    (before.concat after).data.length =
      (before.concat after).shape.prod * (before.concat after).dtype.itemsize := by
  obtain ⟨dtype, first, second, tails⟩ := same
  obtain ⟨rows, row, shape⟩ := List.exists_cons_of_ne_nil first
  obtain ⟨rows', row', shape'⟩ := List.exists_cons_of_ne_nil second
  obtain rfl : row = row' := by simpa [shape, shape'] using tails
  simp only [Tensor.concat, shape, shape', addRows, List.length_append, List.prod_cons, early,
    late, dtype]
  ring

/-- A save under the path. -/
theorem saveBin_holds {disk store : BinStore} {tensor : SizedTensor} {path other : String}
    {addSave : Bool} {before : Option Tensor} (own : binPath other = path)
    (holds : Holds disk path before store)
    (appends : (Op.saveBin tensor other addSave).Appends disk path before) :
    Holds disk path (some (tensor.toTensor.saved addSave before))
      (saveBin store tensor.toTensor other addSave) := by
  subst own
  refine ⟨?_, ?_, ?_⟩
  · rw [saveBin_files, Function.update_self]
    cases addSave with
    | false => rfl
    | true =>
        cases before with
        | none =>
            rw [holds.1, (appends rfl).1]
            rfl
        | some old =>
            rw [holds.1]
            rfl
  · rw [saveBin_entry, Function.update_self]
    cases addSave with
    | false => rfl
    | true =>
        cases before with
        | none =>
            rw [holds.2, (appends rfl).2]
            rfl
        | some old =>
            rw [holds.2.1]
            rfl
  · cases addSave with
    | false => exact tensor.sized
    | true =>
        cases before with
        | none => exact tensor.sized
        | some old => exact concat_sized (appends rfl) holds.2.2 tensor.sized

/-- A call keeps what was saved under a path, or saves under it. -/
theorem perform_holds {disk store : BinStore} {path : String} {before : Option Tensor} (op : Op)
    (holds : Holds disk path before store)
    (appends : op.Appends disk path before) :
    Holds disk path (track path before op) (perform store op) := by
  cases op with
  | saveBin tensor other addSave =>
      rw [perform, track]
      by_cases raises : SaveRaises store tensor.toTensor other addSave
      · -- A save that raises is not one under the path, or there is no directory.
        rw [if_pos raises]
        by_cases own : binPath other = path ∧ dirname path ≠ ""
        · obtain ⟨rfl, directory⟩ := own
          obtain ⟨rfl, info, found, scalar⟩ := raises.resolve_left directory
          cases before with
          | none =>
              have fresh := (appends rfl).2
              rw [← holds.2] at fresh
              rw [fresh] at found
              cases found
          | some old =>
              obtain ⟨-, first, second, -⟩ := appends rfl
              obtain rfl := Option.some.inj (holds.2.1.symm.trans found)
              exact absurd scalar (not_or.mpr ⟨second, first⟩)
        · rw [if_neg own]
          exact holds
      · rw [if_neg raises]
        by_cases own : binPath other = path
        · have directory : dirname path ≠ "" := fun empty => raises (Or.inl (own ▸ empty))
          rw [if_pos ⟨own, directory⟩]
          exact saveBin_holds own holds appends
        · rw [if_neg fun both => own both.1]
          refine holds.congr ?_ ?_
          · rw [saveBin_files, Function.update_of_ne (Ne.symm own)]
          · rw [saveBin_entry, Function.update_of_ne (Ne.symm own)]
  | flushSaveBinConf => exact holds.congr rfl (flushSaveBinConf_entry store path)
  | loadConf other =>
      exact holds.congr (congrFun (loadConf_files store other) path)
        (loadConf_entry store other path)
  | loadBin other =>
      exact holds.congr (congrFun (cacheConf_files store (binPath other)) path)
        (cacheConf_entry store (binPath other) path)
  | loadBinDisk other ind =>
      exact holds.congr (congrFun (cacheConf_files store (binPath other)) path)
        (cacheConf_entry store (binPath other) path)

theorem foldl_holds {disk store : BinStore} {path : String} {before : Option Tensor}
    {ops : List Op} (holds : Holds disk path before store)
    (appends : Appends disk path before ops) :
    Holds disk path (ops.foldl (track path) before) (ops.foldl perform store) := by
  induction ops generalizing before store with
  | nil => exact holds
  | cons op ops ih => exact ih (perform_holds op holds appends.1) appends.2

/-- After a session the file and the configuration on the disk have what was saved. -/
theorem session_holds {disk : BinStore} {path : String} {ops : List Op} {tensor : Tensor}
    (appends : Appends disk path none ops) (saved : written path ops = some tensor) :
    (session disk ops).files path = some tensor.data ∧
      (∃ conf, (session disk ops).json (dirname path) = some conf ∧
        conf path = some ⟨tensor.dtype, tensor.shape⟩) ∧
      tensor.data.length = tensor.shape.prod * tensor.dtype.itemsize := by
  have start : Holds disk path none disk.freshProcess := ⟨rfl, rfl⟩
  have ended := foldl_holds start appends
  rw [written] at saved
  rw [saved] at ended
  obtain ⟨files, entry, sized⟩ := ended
  exact ⟨files, flushSaveBinConf_json entry, sized⟩

/-! ## Loading the whole tensor -/

/-- A load uses the cached configuration, else the one on the disk. -/
theorem cacheConf_confs {store : BinStore} {path : String} {tensor : Tensor} {conf : Conf}
    (json : store.json (dirname path) = some conf)
    (entry : conf path = some ⟨tensor.dtype, tensor.shape⟩) :
    ((store.cacheConf path).confs (dirname path)).bind (· path) = store.found path tensor := by
  unfold BinStore.cacheConf BinStore.found
  cases cached : store.confs (dirname path) with
  | some old => simp [cached]
  | none => simp [json, entry]

theorem loadBin_eq {store : BinStore} {path : String} {conf : Conf}
    (json : store.json (dirname (binPath path)) = some conf) :
    loadBin store path =
      match ((store.cacheConf (binPath path)).confs (dirname (binPath path))).bind
        (· (binPath path)) with
      | none => .ok (none, store.cacheConf (binPath path))
      | some info =>
          match store.files (binPath path) with
          | none => .error .noFile
          | some bytes =>
              match reshaped info bytes with
              | none => .error .badShape
              | some data =>
                  .ok (some ⟨loadedDType info.dtype (binPath path), info.shape, data⟩,
                    store.cacheConf (binPath path)) := by
  cases cached : store.confs (dirname (binPath path)) with
  | some old =>
      have kept : store.cacheConf (binPath path) = store := by simp [BinStore.cacheConf, cached]
      rw [kept, loadBin]
      simp only [cached, Option.isSome_some, if_true, pure_bind]
      rfl
  | none =>
      have read : loadConf store (binPath path) = .ok (store.cacheConf (binPath path)) := by
        simp [loadConf, BinStore.cacheConf, cached, json]
      rw [loadBin, ← cacheConf_files store (binPath path)]
      simp only [cached, Option.isSome_none, Bool.false_eq_true, if_false, read]
      rfl

/-- Widening keeps apart the types of elements of one size. -/
theorem dtype_of_loadedDType {left right : DType} {path : String}
    (loaded : loadedDType left path = loadedDType right path)
    (size : left.itemsize = right.itemsize) : left = right := by
  unfold loadedDType at loaded
  split at loaded
  · next first =>
      split at loaded
      · next second => rw [first.1, second.1]
      · rw [← loaded, first.1] at size
        cases size
  · split at loaded
    · next second =>
        rw [loaded, second.1] at size
        cases size
    · exact loaded

/-- The whole file has the elements of the shape exactly if the element types agree. -/
theorem reshaped_eq_iff {info : TensorInfo} {tensor : Tensor} {path : String}
    (sized : tensor.data.length = tensor.shape.prod * tensor.dtype.itemsize)
    (shape : info.shape = tensor.shape)
    (loaded : loadedDType info.dtype path = loadedDType tensor.dtype path) :
    reshaped info tensor.data = some tensor.data ↔
      (tensor.data ≠ [] → info.dtype = tensor.dtype) := by
  have positive := info.dtype.itemsize_pos
  constructor
  · intro whole occupied
    refine dtype_of_loadedDType loaded ?_
    rw [reshaped, shape] at whole
    by_cases count : tensor.data.length / info.dtype.itemsize = tensor.shape.prod
    · rw [if_pos count, Option.some.injEq] at whole
      have length := congrArg List.length whole
      rw [List.length_take, Nat.min_eq_left (count ▸ Nat.div_mul_le_self _ _), sized] at length
      refine Nat.eq_of_mul_eq_mul_left ?_ length
      refine Nat.pos_of_ne_zero fun empty => occupied ?_
      rw [empty, Nat.zero_mul] at sized
      exact List.eq_nil_of_length_eq_zero sized
    · rw [if_neg count] at whole
      cases whole
  · intro same
    rw [reshaped, shape]
    by_cases empty : tensor.data = []
    · have none_ : tensor.shape.prod = 0 := by
        rw [empty] at sized
        exact (Nat.mul_eq_zero.mp sized.symm).resolve_right
          (Nat.ne_of_gt tensor.dtype.itemsize_pos)
      rw [empty, none_]
      simp
    · rw [same empty, sized, Nat.mul_div_cancel _ tensor.dtype.itemsize_pos, if_pos rfl, ← sized,
        List.take_length]

/-- `loadBin` returns the tensor exactly if the entry that it finds describes it. -/
theorem loadBin_iff {store : BinStore} {path : String} {tensor : Tensor} {conf : Conf}
    (file : store.files (binPath path) = some tensor.data)
    (json : store.json (dirname (binPath path)) = some conf)
    (entry : conf (binPath path) = some ⟨tensor.dtype, tensor.shape⟩)
    (sized : tensor.data.length = tensor.shape.prod * tensor.dtype.itemsize) :
    (∃ after, loadBin store path = .ok (some (tensor.loaded (binPath path)), after)) ↔
      ∃ info ∈ store.found (binPath path) tensor, info.Describes tensor (binPath path) := by
  rw [loadBin_eq json, cacheConf_confs json entry, file]
  cases found : store.found (binPath path) tensor with
  | none => simp
  | some info =>
      simp only [Option.mem_def, Option.some.injEq, exists_eq_left']
      constructor
      · rintro ⟨after, loaded⟩
        cases whole : reshaped info tensor.data with
        | none =>
            rw [whole] at loaded
            cases loaded
        | some data =>
            simp only [whole, Except.ok.injEq, Prod.mk.injEq, Option.some.injEq, Tensor.loaded,
              Tensor.mk.injEq] at loaded
            obtain ⟨⟨dtype, shape, rfl⟩, -⟩ := loaded
            exact ⟨shape, dtype, (reshaped_eq_iff sized shape dtype).mp whole⟩
      · rintro ⟨shape, dtype, same⟩
        rw [(reshaped_eq_iff sized shape dtype).mpr same]
        refine ⟨store.cacheConf (binPath path), ?_⟩
        simp only [Tensor.loaded, shape, dtype]

/-! ## Loading rows -/

theorem readBatch_append (info : TensorInfo) (data : List UInt8) (first second : List Nat) :
    readBatch info data (first ++ second) =
      (readBatch info data first).bind fun rows =>
        (readBatch info data second).map (rows ++ ·) := by
  unfold readBatch
  rcases info.shape with _ | ⟨rows, _ | ⟨width, rest⟩⟩
  · rfl
  · rfl
  · simp only [List.forall_mem_append, List.flatMap_append]
    by_cases early : ∀ id ∈ first, id < rows
    · by_cases late : ∀ id ∈ second, id < rows
      · rw [if_pos ⟨early, late⟩, if_pos early, if_pos late]
        rfl
      · rw [if_neg fun both => late both.2, if_pos early, if_neg late]
        rfl
    · rw [if_neg fun both => early both.1, if_neg early]
      rfl

/-- The batches read together what one batch would. -/
theorem mapM_readBatch (info : TensorInfo) (data : List UInt8) (batch : List Nat)
    (batches : List (List Nat)) :
    ((batch :: batches).mapM (readBatch info data)).map List.flatten =
      readBatch info data (batch :: batches).flatten := by
  induction batches generalizing batch with
  | nil =>
      simp only [List.mapM_cons, List.mapM_nil, List.flatten_cons, List.flatten_nil,
        List.append_nil]
      cases readBatch info data batch with
      | none => rfl
      | some rows => simp
  | cons next batches ih =>
      rw [List.flatten_cons, readBatch_append, ← ih next, List.mapM_cons]
      cases readBatch info data batch with
      | none => rfl
      | some rows =>
          cases (next :: batches).mapM (readBatch info data) with
          | none => rfl
          | some read => rfl

theorem readDataFromFile_eq {indices : List Nat} (some_ : indices ≠ []) (info : TensorInfo)
    (bytes : List UInt8) :
    readDataFromFile info bytes indices =
      (memmap info bytes).bind fun data =>
        (readBatch info data indices).bind (reshapeRead info) := by
  have whole : (batchesOf 4096 indices.length indices).flatten = indices :=
    batchesOf_flatten (by decide) (Nat.le_refl _)
  rw [readDataFromFile]
  cases batches : batchesOf 4096 indices.length indices with
  | nil =>
      rw [batches] at whole
      exact absurd whole.symm some_
  | cons batch rest =>
      rw [batches] at whole
      refine congrArg (memmap info bytes).bind (funext fun data => ?_)
      have read := mapM_readBatch info data batch rest
      rw [whole] at read
      rw [← read, List.mapM_cons]
      cases readBatch info data batch with
      | none => rfl
      | some rows =>
          cases rest.mapM (readBatch info data) with
          | none => rfl
          | some others => rfl

theorem length_mappedRow {rowBytes rows id : Nat} {data : List UInt8} (inside : id < rows)
    (fits : rows * rowBytes ≤ data.length) : (mappedRow rowBytes data id).length = rowBytes := by
  have last : (id + 1) * rowBytes ≤ rows * rowBytes := Nat.mul_le_mul_right _ inside
  rw [mappedRow, List.length_take, List.length_drop]
  rw [Nat.succ_mul] at last
  omega

/-- The mapped part of a file has the rows of the file. -/
theorem mappedRow_take {rowBytes rows id : Nat} (data : List UInt8) (inside : id < rows) :
    mappedRow rowBytes (data.take (rows * rowBytes)) id = mappedRow rowBytes data id := by
  have last : (id + 1) * rowBytes ≤ rows * rowBytes := Nat.mul_le_mul_right _ inside
  rw [Nat.succ_mul] at last
  rw [mappedRow, mappedRow, List.drop_take, List.take_take, Nat.min_eq_left (by omega)]

theorem length_flatMap_mappedRow {rowBytes rows : Nat} {data : List UInt8} {ids : List Nat}
    (inside : ∀ id ∈ ids, id < rows) (fits : rows * rowBytes ≤ data.length) :
    (ids.flatMap (mappedRow rowBytes data)).length = ids.length * rowBytes := by
  induction ids with
  | nil => simp
  | cons id ids ih =>
      rw [List.flatMap_cons, List.length_append, length_mappedRow (inside id (by simp)) fits,
        ih fun other member => inside other (by simp [member]), List.length_cons, Nat.succ_mul,
        Nat.add_comm]

/-- What is read from a file that is long enough, when the entry has the ids. -/
theorem read_rows {info : TensorInfo} {rows width : Nat} {rest ids : List Nat} {data : List UInt8}
    (shape : info.shape = rows :: width :: rest) (inside : ∀ id ∈ ids, id < rows)
    (fits : info.shape.prod * info.dtype.itemsize ≤ data.length) :
    (readBatch info (data.take (info.shape.prod * info.dtype.itemsize)) ids).bind
        (reshapeRead info) =
      if 0 < width then
        some ⟨info.dtype, [ids.length * rest.prod, width],
          ids.flatMap (mappedRow ((width :: rest).prod * info.dtype.itemsize) data)⟩
      else none := by
  have total : info.shape.prod * info.dtype.itemsize =
      rows * ((width :: rest).prod * info.dtype.itemsize) := by
    rw [shape, List.prod_cons, Nat.mul_assoc]
  rw [total] at fits ⊢
  have rowsRead : ids.flatMap (mappedRow ((width :: rest).prod * info.dtype.itemsize)
      (data.take (rows * ((width :: rest).prod * info.dtype.itemsize)))) =
      ids.flatMap (mappedRow ((width :: rest).prod * info.dtype.itemsize) data) :=
    List.flatMap_congr fun id member => mappedRow_take data (inside id member)
  simp only [readBatch, shape, if_pos inside, rowsRead, Option.bind_some, reshapeRead,
    length_flatMap_mappedRow inside fits]
  have elements : ids.length * ((width :: rest).prod * info.dtype.itemsize) /
      info.dtype.itemsize = width * (ids.length * rest.prod) := by
    rw [← Nat.mul_assoc, Nat.mul_div_cancel _ info.dtype.itemsize_pos, List.prod_cons]
    ring
  rw [elements]
  by_cases positive : 0 < width
  · rw [if_pos positive, if_pos ⟨positive, Nat.dvd_mul_right _ _⟩,
      Nat.mul_div_cancel_left _ positive]
  · rw [if_neg positive, if_neg fun both => positive both.1]

theorem memmap_eq_some {info : TensorInfo} {bytes data : List UInt8}
    (mapped : memmap info bytes = some data) :
    bytes ≠ [] ∧ info.shape.prod * info.dtype.itemsize ≤ bytes.length ∧
      data = bytes.take (info.shape.prod * info.dtype.itemsize) := by
  rw [memmap] at mapped
  split at mapped
  · next fits => exact ⟨fits.1, fits.2, (Option.some.inj mapped).symm⟩
  · cases mapped

/-- A batch is read from a table that has the rows. -/
theorem readBatch_isSome {info : TensorInfo} {data : List UInt8} {ids : List Nat} {read : Tensor}
    (found : (readBatch info data ids).bind (reshapeRead info) = some read) :
    ∃ rows width rest, info.shape = rows :: width :: rest ∧ ∀ id ∈ ids, id < rows := by
  obtain ⟨bytes, batch, -⟩ := Option.bind_eq_some_iff.mp found
  rw [readBatch] at batch
  split at batch
  · next rows width rest shape =>
      split at batch
      · next early => exact ⟨rows, width, rest, shape, early⟩
      · cases batch
  · cases batch

/-- The rows that are read are the tensor's exactly if the entry reaches them. -/
theorem readDataFromFile_iff {info : TensorInfo} {tensor : Tensor} {path : String} {rows : Nat}
    {row ids : List Nat}
    (sized : tensor.data.length = tensor.shape.prod * tensor.dtype.itemsize)
    (shape : tensor.shape = rows :: row) (inside : ∀ id ∈ ids, id < rows) :
    ((readDataFromFile info tensor.data ids).map fun read => read.loaded path) =
        some ((tensor.rows row ids).loaded path) ↔ info.Reaches tensor path row ids := by
  by_cases none_ : ids = []
  · subst none_
    have read : readDataFromFile info tensor.data [] =
        (memmap info tensor.data).map fun _ => ⟨info.dtype, [0], []⟩ := by
      rw [readDataFromFile]
      cases memmap info tensor.data with
      | none => rfl
      | some data => rfl
    rw [read]
    constructor
    · intro same
      cases mapped : memmap info tensor.data with
      | none =>
          rw [mapped] at same
          cases same
      | some data =>
          obtain ⟨occupied, fits, -⟩ := memmap_eq_some mapped
          simp only [mapped, Option.map_some, Option.some.injEq, Tensor.loaded, Tensor.rows,
            Tensor.mk.injEq, List.length_nil, List.cons.injEq, true_and] at same
          exact ⟨occupied, fits, Or.inl ⟨rfl, same.2.1.symm, same.1⟩⟩
    · rintro ⟨occupied, fits, ⟨-, rfl, loaded⟩ | ⟨some_, -⟩⟩
      · rw [memmap, if_pos ⟨occupied, fits⟩]
        simp [Tensor.loaded, Tensor.rows, loaded]
      · exact absurd rfl some_
  · have count : 0 < ids.length := List.length_pos_iff.mpr none_
    rw [readDataFromFile_eq none_]
    constructor
    · intro same
      obtain ⟨read, found, same⟩ := Option.map_eq_some_iff.mp same
      obtain ⟨data, mapped, found⟩ := Option.bind_eq_some_iff.mp found
      obtain ⟨occupied, fits, rfl⟩ := memmap_eq_some mapped
      obtain ⟨entryRows, width, rest, shape', early⟩ := readBatch_isSome found
      rw [read_rows shape' early fits] at found
      split at found
      · next positive =>
          obtain rfl := Option.some.inj found
          simp only [Tensor.loaded, Tensor.rows, Tensor.mk.injEq, List.cons.injEq] at same
          obtain ⟨loaded, ⟨lengths, rfl⟩, bytes⟩ := same
          have one : rest.prod = 1 :=
            Nat.eq_of_mul_eq_mul_left count (lengths.trans (Nat.mul_one _).symm)
          have size : info.dtype.itemsize = tensor.dtype.itemsize := by
            have own : entryRows * ((width :: rest).prod * info.dtype.itemsize) ≤
                tensor.data.length := by
              rw [← Nat.mul_assoc, ← List.prod_cons, ← shape']
              exact fits
            have whole : rows * ([width].prod * tensor.dtype.itemsize) ≤ tensor.data.length := by
              rw [← Nat.mul_assoc, ← List.prod_cons, ← shape, sized]
            have same := congrArg List.length bytes
            rw [length_flatMap_mappedRow early own, length_flatMap_mappedRow inside whole] at same
            have row := Nat.eq_of_mul_eq_mul_left count same
            simp only [List.prod_cons, List.prod_nil, one, Nat.mul_one] at row
            exact Nat.eq_of_mul_eq_mul_left positive row
          exact ⟨occupied, fits, Or.inr ⟨none_, dtype_of_loadedDType loaded size, entryRows, width,
            rest, shape', one, rfl, early⟩⟩
      · cases found
    · rintro ⟨occupied, fits,
        ⟨empty, -⟩ | ⟨-, dtype, entryRows, width, rest, shape', one, rfl, early⟩⟩
      · exact absurd empty none_
      · have positive : 0 < width := by
          refine Nat.pos_of_ne_zero ?_
          rintro rfl
          rw [shape] at sized
          simp only [List.prod_cons, Nat.zero_mul, Nat.mul_zero] at sized
          exact occupied (List.eq_nil_of_length_eq_zero sized)
        rw [memmap, if_pos ⟨occupied, fits⟩, Option.bind_some, read_rows shape' early fits,
          if_pos positive]
        simp only [one, dtype, List.prod_cons, List.prod_nil, Nat.mul_one, Option.map_some,
          Tensor.rows, Tensor.loaded]

/-- `loadBinDisk` returns the rows exactly if the entry that it finds reaches them. -/
theorem loadBinDisk_iff {numpyBool : Bool} {store : BinStore} {path : String} {tensor : Tensor}
    {conf : Conf} {rows : Nat} {row ids : List Nat}
    (file : store.files (binPath path) = some tensor.data)
    (json : store.json (dirname (binPath path)) = some conf)
    (entry : conf (binPath path) = some ⟨tensor.dtype, tensor.shape⟩)
    (sized : tensor.data.length = tensor.shape.prod * tensor.dtype.itemsize)
    (shape : tensor.shape = rows :: row) (inside : ∀ id ∈ ids, id < rows) :
    loadBinDisk numpyBool store path ids = some ((tensor.rows row ids).loaded (binPath path)) ↔
      ∃ info ∈ store.found (binPath path) tensor,
        npType numpyBool info.dtype = some info.dtype ∧
          info.Reaches tensor (binPath path) row ids := by
  have load : loadBinDisk numpyBool store path ids =
      (store.found (binPath path) tensor).bind fun info =>
        (npType numpyBool info.dtype).bind fun dtype =>
          (readDataFromFile ⟨dtype, info.shape⟩ tensor.data ids).map fun read =>
            read.loaded (binPath path) := by
    rw [← cacheConf_confs json entry, Option.bind_assoc, loadBinDisk, file]
    simp only [Option.map_eq_bind]
    rfl
  rw [load]
  cases found : store.found (binPath path) tensor with
  | none => simp
  | some info =>
      simp only [Option.mem_def, Option.some.injEq, exists_eq_left', Option.bind_some]
      rw [← readDataFromFile_iff sized shape inside]
      by_cases unknown : info.dtype = .bool ∧ numpyBool = false
      · simp [npType, unknown]
      · simp [npType, unknown]

/-! ## Sessions -/

/-- A call that reads the configuration of a directory. -/
def Op.LoadsFrom (op : Op) (dir : String) : Prop :=
  match op with
  | .loadConf path => dirname path = dir
  | .loadBin path | .loadBinDisk path _ => dirname (binPath path) = dir
  | _ => False

theorem cacheConf_confs_of_ne {store : BinStore} {path dir : String} (other : dirname path ≠ dir) :
    (store.cacheConf path).confs dir = store.confs dir := by
  unfold BinStore.cacheConf
  split
  · exact confs_update_of_ne _ other
  · rfl

theorem perform_confs {store : BinStore} {op : Op} {dir : String} (none_ : ¬op.LoadsFrom dir) :
    (perform store op).confs dir = store.confs dir := by
  cases op with
  | saveBin tensor path addSave =>
      rw [perform]
      split
      · rfl
      · rw [saveBin]
        split
        · rfl
        · rfl
  | flushSaveBinConf => rfl
  | loadConf path =>
      rw [perform, loadConf]
      split
      · rfl
      · exact confs_update_of_ne _ none_
  | loadBin path => exact cacheConf_confs_of_ne none_
  | loadBinDisk path ind => exact cacheConf_confs_of_ne none_

/-- A session that loads nothing from a directory finds what was saved there. -/
theorem found_session (disk : BinStore) {ops : List Op} {path : String} (tensor : Tensor)
    (none_ : ∀ op ∈ ops, ¬op.LoadsFrom (dirname path)) :
    (session disk ops).found path tensor = some ⟨tensor.dtype, tensor.shape⟩ := by
  have confs : ∀ store : BinStore, (ops.foldl perform store).confs (dirname path) =
      store.confs (dirname path) := by
    induction ops with
    | nil => exact fun _ => rfl
    | cons op ops ih =>
        intro store
        rw [List.foldl_cons, ih fun other member => none_ other (List.mem_cons_of_mem _ member)]
        exact perform_confs (none_ op List.mem_cons_self)
  have uncached : (session disk ops).confs (dirname path) = none := confs disk.freshProcess
  rw [BinStore.found, uncached]

/-- When no call has loaded from the directory, `loadBin` returns what was saved. -/
theorem loadBin_session {disk : BinStore} {path : String} {ops : List Op} {tensor : Tensor}
    (appends : Appends disk (binPath path) none ops)
    (saved : written (binPath path) ops = some tensor)
    (none_ : ∀ op ∈ ops, ¬op.LoadsFrom (dirname (binPath path))) :
    ∃ after, loadBin (session disk ops) path =
      .ok (some (tensor.loaded (binPath path)), after) := by
  obtain ⟨file, ⟨conf, json, entry⟩, sized⟩ := session_holds appends saved
  refine (loadBin_iff file json entry sized).mpr ?_
  exact ⟨_, found_session disk tensor none_, rfl, rfl, fun _ => rfl⟩

/-- After every session, whatever was saved under other paths: `loadBin` returns the tensor
that was saved under a path exactly if the entry that it finds describes it, and
`loadBinDisk` returns rows of it exactly if the entry reaches them. -/
theorem session_reads_iff (numpyBool : Bool) {disk : BinStore} {path : String} {ops : List Op}
    {tensor : Tensor} (appends : Appends disk (binPath path) none ops)
    (saved : written (binPath path) ops = some tensor) :
    ((∃ after, loadBin (session disk ops) path =
        .ok (some (tensor.loaded (binPath path)), after)) ↔
      ∃ info ∈ (session disk ops).found (binPath path) tensor,
        info.Describes tensor (binPath path)) ∧
    ∀ rows row ids, tensor.shape = rows :: row → (∀ id ∈ ids, id < rows) →
      (loadBinDisk numpyBool (session disk ops) path ids =
          some ((tensor.rows row ids).loaded (binPath path)) ↔
        ∃ info ∈ (session disk ops).found (binPath path) tensor,
          npType numpyBool info.dtype = some info.dtype ∧
            info.Reaches tensor (binPath path) row ids) := by
  obtain ⟨file, ⟨conf, json, entry⟩, sized⟩ := session_holds appends saved
  refine ⟨loadBin_iff file json entry sized, ?_⟩
  intro rows row ids shape inside
  exact loadBinDisk_iff file json entry sized shape inside

/-- A disk without files. -/
def emptyDisk : BinStore := ⟨fun _ => none, fun _ => none, fun _ => none, fun _ => none⟩

/-- A table of two rows of one byte each, in two saves, and another file between them. -/
def twoSaves : List Op :=
  [.saveBin ⟨⟨.uint8, [1, 1], [7]⟩, rfl⟩ "d/x.pt" false,
    .saveBin ⟨⟨.float16, [1], [0, 0]⟩, rfl⟩ "d/y.bin" false,
    .saveBin ⟨⟨.uint8, [1, 1], [8]⟩, rfl⟩ "d/x.bin" true]

theorem session_reads_iff_twoSaves :
    ((∃ after, loadBin (session emptyDisk twoSaves) "d/x.pt" =
        .ok (some (Tensor.loaded ⟨.uint8, [2, 1], [7, 8]⟩ "d/x.bin"), after)) ↔
      ∃ info ∈ (session emptyDisk twoSaves).found "d/x.bin" ⟨.uint8, [2, 1], [7, 8]⟩,
        info.Describes ⟨.uint8, [2, 1], [7, 8]⟩ "d/x.bin") ∧
    (loadBinDisk true (session emptyDisk twoSaves) "d/x.pt" [1] =
        some ((Tensor.rows ⟨.uint8, [2, 1], [7, 8]⟩ [1] [1]).loaded "d/x.bin") ↔
      ∃ info ∈ (session emptyDisk twoSaves).found "d/x.bin" ⟨.uint8, [2, 1], [7, 8]⟩,
        npType true info.dtype = some info.dtype ∧
          info.Reaches ⟨.uint8, [2, 1], [7, 8]⟩ "d/x.bin" [1] [1]) := by
  have key : binPath "d/x.pt" = "d/x.bin" := rfl
  have appends : Appends emptyDisk (binPath "d/x.pt") none twoSaves := by
    refine ⟨trivial, trivial, fun _ => ?_, trivial⟩
    exact ⟨rfl, List.cons_ne_nil _ _, List.cons_ne_nil _ _, rfl⟩
  have saved : written (binPath "d/x.pt") twoSaves = some ⟨.uint8, [2, 1], [7, 8]⟩ := by decide
  obtain ⟨whole, rows⟩ := session_reads_iff true appends saved
  rw [key] at whole rows
  exact ⟨whole, rows 2 [1] [1] rfl (by decide)⟩

/-- A file that is loaded before rows are added to it. -/
def loadBetween : List Op :=
  [.saveBin ⟨⟨.uint8, [1], [7]⟩, rfl⟩ "d/x.bin" false, .loadBin "d/x.bin",
    .saveBin ⟨⟨.uint8, [1], [8]⟩, rfl⟩ "d/x.bin" true]

/-- The last load still has the shape of the first one. -/
theorem loadBetween_fails :
    Appends emptyDisk "d/x.bin" none loadBetween ∧
      written "d/x.bin" loadBetween = some ⟨.uint8, [2], [7, 8]⟩ ∧
      loadBin (session emptyDisk loadBetween) "d/x.bin" = .error .badShape := by
  refine ⟨⟨trivial, trivial, fun _ => ?_, trivial⟩, ?_, rfl⟩
  · exact ⟨rfl, List.cons_ne_nil _ _, List.cons_ne_nil _ _, rfl⟩
  · decide

end Dolphin.Store
