import Dolphin.Store.StreamExtractExact

/-!
# What `stream_extract` leaves on the disk

The rows of the requested ids lie under the name of their list, and every other file and
entry is what it was: extractions into one directory add up. A process on the same disk
loads them as rows, whatever it has loaded before.
-/

namespace Dolphin.Store

open Dolphin.Tensor

/-! ## Saved rows -/

/-- Some rows are stored under a path. -/
structure RowsSaved (store : BinStore) (path : String) (npType : DType) (featLen : Nat)
    (rows : List (List UInt8)) : Prop where
  file : store.files (binPath path) = some rows.flatten
  entry : store.entry (binPath path) = some ⟨npType, [rows.length, featLen]⟩

/-- The configuration files have every entry. -/
def BinStore.Flushed (store : BinStore) : Prop :=
  ∀ path info, store.entry path = some info →
    ∃ conf, store.json (dirname path) = some conf ∧ conf path = some info

theorem flushSaveBinConf_flushed (store : BinStore) : (flushSaveBinConf store).Flushed :=
  fun _ _ entry => flushSaveBinConf_json ((flushSaveBinConf_entry store _).symm.trans entry)

/-- Two stores have the same file and the same entry at a path. -/
def BinStore.AgreeAt (store other : BinStore) (path : String) : Prop :=
  store.files path = other.files path ∧ store.entry path = other.entry path

theorem BinStore.AgreeAt.trans {first second third : BinStore} {path : String}
    (left : first.AgreeAt second path) (right : second.AgreeAt third path) :
    first.AgreeAt third path :=
  ⟨left.1.trans right.1, left.2.trans right.2⟩

theorem RowsSaved.of_agree {store other : BinStore} {path : String} {npType : DType}
    {featLen : Nat} {rows : List (List UInt8)} (saved : RowsSaved store path npType featLen rows)
    (agree : other.AgreeAt store (binPath path)) : RowsSaved other path npType featLen rows :=
  ⟨agree.1.trans saved.file, agree.2.trans saved.entry⟩

section Extract

variable {featPath : String} {savePaths : List String} {windowSize featLen rows : Nat}
  {his : List (List Nat)} {npType : DType} {F : List (List UInt8)}
  {jobs : List (List Nat × String)}

/-- The windows write the files of the lists and no other. -/
theorem extractWindows_other {wins : List (Nat × Nat)} {store saved : BinStore}
    (run : wins.foldlM (extractWindow featPath jobs featLen npType) store = some saved)
    {path : String} (other : path ∉ jobs.map fun job => binPath job.2) :
    saved.AgreeAt store path := by
  induction wins generalizing store with
  | nil =>
      obtain rfl := Option.some.inj run
      exact ⟨rfl, rfl⟩
  | cons window wins ih =>
      rw [List.foldlM_cons] at run
      obtain ⟨next, step, rest⟩ := Option.bind_eq_some_iff.mp run
      obtain ⟨bytes, source, -⟩ := Option.bind_eq_some_iff.mp step
      rw [extractWindow_eq source] at step
      obtain rfl := Option.some.inj step
      exact (ih rest).trans (saveAll_other other store)

/-- In one window the rows of every list are saved, and nothing else changes. -/
theorem streamExtract_saved {store : BinStore} (width : 0 < featLen) (occupied : his ≠ [])
    (found : ¬ MaxIsInt his)
    (distinct : (featPath :: (his.zip (curSavePaths savePaths)).map fun job =>
      binPath job.2).Nodup)
    (bounded : ∀ ids ∈ his, ∀ x ∈ ids, x < F.length) (single : F.length ≤ windowSize)
    (regular : ∀ row ∈ F, row.length = featLen * npType.itemsize)
    (source : store.files featPath = some F.flatten) :
    ∃ saved, streamExtract store featPath savePaths windowSize his (his.map HisMax.ofIds) featLen
        npType = some saved ∧ saved.Flushed ∧
      (∀ job ∈ his.zip (curSavePaths savePaths),
        RowsSaved saved job.2 npType featLen (job.1.map fun x => F.getD x [])) ∧
      ∀ path, path ∉ ((his.zip (curSavePaths savePaths)).map fun job => binPath job.2) →
        saved.AgreeAt store path := by
  obtain ⟨maxId, item, ⟨ids, inHis, ofMax⟩, above⟩ := maxItem_some occupied found
  have inFile : maxId < F.length := bounded ids inHis maxId ofMax
  have positive : 0 < windowSize := (Nat.zero_lt_of_lt inFile).trans_le single
  have exact_ : StreamExtractExact windowSize his npType :=
    ⟨found, Or.inl fun ids inHis x member => (bounded ids inHis x member).trans_le single⟩
  obtain ⟨_, ⟨_, inHis', ofMax'⟩, above', extracted⟩ :=
    extracted_eq_of_writes width positive occupied found distinct bounded
      (writes_of_exact width positive occupied distinct bounded exact_) rfl regular
  obtain rfl := Nat.le_antisymm (above' _ inHis _ ofMax) (above _ inHis' _ ofMax')
  have whole : F.flatten.length = F.length * (featLen * npType.itemsize) := flatten_length regular
  obtain ⟨saved, run, final⟩ :=
    extractWindows distinct width whole positive (Nat.succ_pos maxId) inFile source
  refine ⟨flushSaveBinConf saved, ?_, flushSaveBinConf_flushed saved, fun job member => ?_,
    fun path other => ?_⟩
  · obtain ⟨best, isBest, isItem⟩ := Option.bind_eq_some_iff.mp item
    simp [streamExtract, isBest, isItem, run]
  · have count : ((windows windowSize (maxId + 1)).map
        fun window => (curInd window job.1).length).sum = job.1.length := by
      have length := congrArg List.length (extracted job member)
      simpa [extractedRows, List.length_flatMap] using length
    refine ⟨?_, ?_⟩
    · rw [flushSaveBinConf_files, final.files job member, extracted job member]
    · rw [flushSaveBinConf_entry, final.entries job member, count, List.length_map]
  · obtain ⟨file, entry⟩ := extractWindows_other run other
    exact ⟨file, (flushSaveBinConf_entry saved path).trans entry⟩

end Extract

/-! ## Another process -/

/-- A process on the disk of another one; it has cached some of the configurations. -/
structure SameDisk (worker saved : BinStore) : Prop where
  files : worker.files = saved.files
  json : worker.json = saved.json
  confs : ∀ dir, worker.confs dir = none ∨ worker.confs dir = saved.json dir

theorem freshProcess_sameDisk (store : BinStore) : SameDisk store.freshProcess store :=
  ⟨rfl, rfl, fun _ => Or.inl rfl⟩

/-- A configuration that has been read is the one on the disk. -/
theorem SameDisk.cached {worker saved : BinStore} {dir : String} {conf : Conf}
    (same : SameDisk worker saved) (stored : saved.json dir = some conf) :
    SameDisk { worker with confs := Function.update worker.confs dir (some conf) } saved where
  files := same.files
  json := same.json
  confs := by
    intro other
    by_cases own : other = dir
    · subst own
      exact Or.inr ((Function.update_self ..).trans stored.symm)
    · simpa [Function.update_of_ne own] using same.confs other

/-- Saved rows are loaded, whatever the process has loaded before. -/
theorem SameDisk.loadBin {worker saved : BinStore} {path : String} {npType : DType}
    {featLen : Nat} {rows : List (List UInt8)} (same : SameDisk worker saved)
    (flushed : saved.Flushed) (held : RowsSaved saved path npType featLen rows)
    (regular : ∀ row ∈ rows, row.length = featLen * npType.itemsize) :
    ∃ after, loadBin worker path =
        .ok (some ⟨loadedDType npType (binPath path), [rows.length, featLen], rows.flatten⟩,
          after) ∧ SameDisk after saved := by
  obtain ⟨conf, stored, found⟩ := flushed _ _ held.entry
  have file : worker.files (binPath path) = some rows.flatten := by rw [same.files, held.file]
  have size : rows.flatten.length = rows.length * featLen * npType.itemsize := by
    rw [flatten_length regular, Nat.mul_assoc]
  have shape : reshaped ⟨npType, [rows.length, featLen]⟩ rows.flatten = some rows.flatten := by
    simp only [reshaped, size, Nat.mul_div_cancel _ npType.itemsize_pos, List.prod_cons,
      List.prod_nil, Nat.mul_one, if_true]
    rw [List.take_of_length_le (Nat.le_of_eq size)]
  rcases same.confs (dirname (binPath path)) with unread | read
  · refine ⟨_, ?_, same.cached stored⟩
    simp [Store.loadBin, loadConf, unread, same.json, stored, found, file, shape, bind,
      Except.bind, pure, Except.pure]
  · refine ⟨worker, ?_, same⟩
    simp [Store.loadBin, read, stored, found, file, shape, bind, Except.bind, pure, Except.pure]

/-- The rows of a loaded tensor. -/
def tensorRows (tensor : Tensor) : List (List UInt8) :=
  reshapeRows (tensor.shape.tail.prod * tensor.dtype.itemsize) tensor.data

/-- `loadBin(path)` as rows, where it finds a tensor. -/
def loadRows (store : BinStore) (path : String) : Option (List (List UInt8)) :=
  match loadBin store path with
  | .ok (some tensor, _) => some (tensorRows tensor)
  | _ => none

/-- Reading back rows of one width. -/
theorem reshapeRows_flatten {rowBytes : Nat} {rows : List (List UInt8)} (width : 0 < rowBytes)
    (regular : ∀ row ∈ rows, row.length = rowBytes) : reshapeRows rowBytes rows.flatten = rows := by
  rw [reshapeRows, flatten_length regular, Nat.mul_div_cancel _ width]
  apply List.ext_getElem
  · simp
  · intro i _ bound
    rw [List.getElem_map, List.getElem_range, flatten_row regular bound,
      List.getD_eq_getElem?_getD, List.getElem?_eq_getElem bound, Option.getD_some]

/-- Rows of `float32` are loaded as they were saved. -/
theorem SameDisk.loadRows {worker saved : BinStore} {path : String} {featLen : Nat}
    {rows : List (List UInt8)} (same : SameDisk worker saved) (flushed : saved.Flushed)
    (width : 0 < featLen) (held : RowsSaved saved path .float32 featLen rows)
    (regular : ∀ row ∈ rows, row.length = featLen * 4) :
    Store.loadRows worker path = some rows := by
  obtain ⟨after, load, -⟩ := same.loadBin flushed held regular
  have back := reshapeRows_flatten (Nat.mul_pos width (by decide : 0 < 4)) regular
  simpa [Store.loadRows, load, tensorRows, loadedDType, DType.itemsize] using back

end Dolphin.Store
