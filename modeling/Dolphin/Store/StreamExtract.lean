import Mathlib.Data.List.Basic
import Mathlib.Tactic.Linarith
import Dolphin.Store.SaveBin
import Dolphin.Tensor.Mask

/-!
# `Feat_buffer.stream_extract`

The feature file is read in windows of `window_size` rows. From every window
each id list takes the rows of its ids in that window and appends them to its
own file, the first window with a plain save.

`extractedRows` is what ends up in a file: `streamExtract_loads` is the closed
form of the extraction followed by a load, for every input on which
`max(his_max).item()` does not raise.
-/

namespace Dolphin.Store

open Dolphin.Tensor

/-! ## The source's pieces -/

/-- `np.fromfile(path, dtype, offset=offset, count=count)`: the offset is in
bytes, the count in elements. -/
def fromfile (bytes : List UInt8) (offset count itemsize : Nat) : List UInt8 :=
  (bytes.drop offset).take (count * itemsize)

/-- `data.reshape(-1, feat_len)`, for rows of `rowBytes` bytes. -/
def reshapeRows (rowBytes : Nat) (data : List UInt8) : List (List UInt8) :=
  (List.range (data.length / rowBytes)).map fun i => (data.drop (i * rowBytes)).take rowBytes

/-- An entry of `his_max`: `torch.max(ids).cpu() if ids.shape[0] > 0 else 0`. -/
inductive HisMax where
  | int (value : Nat)
  | tensor (value : Nat)
  deriving DecidableEq

def HisMax.value : HisMax → Nat
  | .int value | .tensor value => value

def HisMax.ofIds (ids : List Nat) : HisMax :=
  if 0 < ids.length then .tensor (ids.foldl max 0) else .int 0

/-- Python's `max`: the first of the largest entries; an error on an empty list. -/
def pyMax : List HisMax → Option HisMax
  | [] => none
  | first :: rest =>
      some (rest.foldl (fun best entry => if best.value < entry.value then entry else best) first)

/-- `.item()`, which a plain `int` does not have. -/
def HisMax.item : HisMax → Option Nat
  | .int _ => none
  | .tensor value => some value

/-- The windows `start:end` of the `while` loop. Every round advances by at
least one row, so `maxFeatLen` rounds are enough. -/
def windowsFrom (windowSize maxFeatLen : Nat) : Nat → Nat → List (Nat × Nat)
  | 0, _ => []
  | rounds + 1, start =>
      let stop := min (start + windowSize) maxFeatLen
      if stop ≤ start then []
      else (start, stop) :: windowsFrom windowSize maxFeatLen rounds stop

def windows (windowSize maxFeatLen : Nat) : List (Nat × Nat) :=
  windowsFrom windowSize maxFeatLen maxFeatLen 0

/-- The path each list is saved under: all but the first get `_incre`. -/
def curSavePaths (savePaths : List String) : List String :=
  savePaths.zipIdx.map fun p => if 0 < p.2 then replace p.1 ".bin" "_incre.bin" else p.1

/-- `torch.bitwise_and(tensor >= start, tensor < end)`, for one id. -/
def inWindow (window : Nat × Nat) (x : Nat) : Bool :=
  decide (window.1 ≤ x) && decide (x < window.2)

/-- `tensor[mask]` for the ids of one window. -/
def curInd (window : Nat × Nat) (ids : List Nat) : List Nat :=
  maskSelect (ids.map (inWindow window)) ids

/-- `row_data[cur_ind - start]`, flattened as `tofile` writes it. -/
def curData (rowData : List (List UInt8)) (window : Nat × Nat) (ids : List Nat) : List UInt8 :=
  (gather rowData ((curInd window ids).map fun x => x - window.1)).flatten

/-- The body of the loop for one window: the rows are read and every list
saves its own. -/
def extractWindow (featPath : String) (jobs : List (List Nat × String)) (featLen : Nat)
    (npType : DType) (store : BinStore) (window : Nat × Nat) : Option BinStore := do
  let bytes ← store.files featPath
  let rowData := reshapeRows (featLen * npType.itemsize)
    (fromfile bytes (window.1 * featLen) ((window.2 - window.1) * featLen) npType.itemsize)
  some (jobs.foldl (fun store job =>
    saveBin store
      ⟨npType, [(curInd window job.1).length, featLen], curData rowData window job.1⟩
      job.2 (decide (0 < window.1))) store)

/-- `stream_extract(feat_path, save_paths, window_size, his, his_max, feat_len, np_type)`;
`none` where the source raises. -/
def streamExtract (store : BinStore) (featPath : String) (savePaths : List String)
    (windowSize : Nat) (his : List (List Nat)) (hisMax : List HisMax) (featLen : Nat)
    (npType : DType) : Option BinStore := do
  let largest ← pyMax hisMax
  let maxId ← largest.item
  let saved ← (windows windowSize (maxId + 1)).foldlM
    (extractWindow featPath (his.zip (curSavePaths savePaths)) featLen npType) store
  some (flushSaveBinConf saved)

/-! ## The windows -/

theorem inWindow_iff {window : Nat × Nat} {x : Nat} :
    inWindow window x = true ↔ window.1 ≤ x ∧ x < window.2 := by
  simp [inWindow]

theorem curInd_eq_filter (window : Nat × Nat) (ids : List Nat) :
    curInd window ids = ids.filter (inWindow window) :=
  maskSelect_map_self _ ids

/-- Every window lies below the bound, and starts at a multiple of the window size. -/
theorem mem_windowsFrom {windowSize maxFeatLen rounds start : Nat} {window : Nat × Nat}
    (multiple : windowSize ∣ start)
    (member : window ∈ windowsFrom windowSize maxFeatLen rounds start) :
    windowSize ∣ window.1 ∧ start ≤ window.1 ∧ window.1 < window.2 ∧
      window.2 = min (window.1 + windowSize) maxFeatLen := by
  induction rounds generalizing start with
  | zero => simp [windowsFrom] at member
  | succ rounds ih =>
      rw [windowsFrom] at member
      by_cases ended : min (start + windowSize) maxFeatLen ≤ start
      · simp [ended] at member
      · simp only [ended, if_false, List.mem_cons] at member
        rcases member with rfl | later
        · exact ⟨multiple, le_refl _, by simp only; omega, rfl⟩
        · by_cases full : start + windowSize ≤ maxFeatLen
          · rw [Nat.min_eq_left full] at later
            obtain ⟨divides, below, rest⟩ := ih (Nat.dvd_add multiple (Nat.dvd_refl _)) later
            exact ⟨divides, by omega, rest⟩
          · -- The last window: the next round stops at once.
            rw [Nat.min_eq_right (by omega)] at later
            cases rounds with
            | zero => simp [windowsFrom] at later
            | succ rounds =>
                simp [windowsFrom] at later

private theorem filter_length_split {p q r : Nat → Bool} {ids : List Nat}
    (covers : ∀ x ∈ ids, r x = true ↔ p x = true ∨ q x = true)
    (disjoint : ∀ x ∈ ids, ¬ (p x = true ∧ q x = true)) :
    (ids.filter p).length + (ids.filter q).length = (ids.filter r).length := by
  induction ids with
  | nil => rfl
  | cons x ids ih =>
      have tail := ih (fun y member => covers y (by simp [member]))
        (fun y member => disjoint y (by simp [member]))
      have covered := covers x (by simp)
      have apart := disjoint x (by simp)
      simp only [List.filter_cons]
      cases hp : p x <;> cases hq : q x <;> cases hr : r x <;>
        simp_all <;> omega

/-- No id lies behind the last row. -/
theorem filter_past_end {maxFeatLen start : Nat} {ids : List Nat} (past : maxFeatLen ≤ start)
    (bounded : ∀ x ∈ ids, x < maxFeatLen) : ids.filter (fun x => decide (start ≤ x)) = [] := by
  rw [List.filter_eq_nil_iff]
  intro x member early
  exact absurd (of_decide_eq_true early) (Nat.not_le.mpr ((bounded x member).trans_le past))

/-- The windows partition the ids from `start` on: their counts add up. -/
theorem windowsFrom_count {windowSize maxFeatLen rounds start : Nat} (positive : 0 < windowSize)
    (enough : maxFeatLen ≤ start + rounds) (ids : List Nat) (bounded : ∀ x ∈ ids, x < maxFeatLen) :
    ((windowsFrom windowSize maxFeatLen rounds start).map
        fun window => (curInd window ids).length).sum =
      (ids.filter fun x => decide (start ≤ x)).length := by
  induction rounds generalizing start with
  | zero =>
      have past : maxFeatLen ≤ start := enough
      simp [windowsFrom, filter_past_end past bounded]
  | succ rounds ih =>
      rw [windowsFrom]
      by_cases ended : min (start + windowSize) maxFeatLen ≤ start
      · have past : maxFeatLen ≤ start := by omega
        simp [ended, filter_past_end past bounded]
      · simp only [ended, if_false, List.map_cons, List.sum_cons]
        rw [ih (by omega), curInd_eq_filter]
        apply filter_length_split
        · intro x member
          have bound := bounded x member
          simp only [inWindow, Bool.and_eq_true, decide_eq_true_eq]
          omega
        · intro x _
          simp only [inWindow, Bool.and_eq_true, decide_eq_true_eq]
          omega

/-! ## The rows of a window -/

/-- The row `np.fromfile` and the indexing pick for id `x` in the window from
`start`, as a range of bytes of the file. -/
def readRow (bytes : List UInt8) (featLen itemsize start x : Nat) : List UInt8 :=
  (bytes.drop (start * featLen + (x - start) * (featLen * itemsize))).take (featLen * itemsize)

/-- The rows written for one id list, window after window. -/
def extractedRows (bytes : List UInt8) (featLen itemsize : Nat) (wins : List (Nat × Nat))
    (ids : List Nat) : List (List UInt8) :=
  wins.flatMap fun window => (curInd window ids).map (readRow bytes featLen itemsize window.1)

/-- Element `i` of a reshaped read is a range of bytes of the file. -/
theorem reshapeRows_getD {bytes : List UInt8} {offset rows rowBytes i : Nat}
    (positive : 0 < rowBytes) (fits : offset + rows * rowBytes ≤ bytes.length) (bound : i < rows) :
    (reshapeRows rowBytes ((bytes.drop offset).take (rows * rowBytes))).getD i default =
      (bytes.drop (offset + i * rowBytes)).take rowBytes := by
  have inside : i * rowBytes + rowBytes ≤ rows * rowBytes := by
    calc i * rowBytes + rowBytes = (i + 1) * rowBytes := (Nat.succ_mul i rowBytes).symm
      _ ≤ rows * rowBytes := Nat.mul_le_mul_right rowBytes bound
  have total : ((bytes.drop offset).take (rows * rowBytes)).length / rowBytes = rows := by
    rw [List.length_take, List.length_drop, Nat.min_eq_left (by omega),
      Nat.mul_div_cancel _ positive]
  unfold reshapeRows
  rw [total, List.getD_eq_getElem?_getD, List.getElem?_map, List.getElem?_range bound]
  simp only [Option.map_some, Option.getD_some]
  rw [List.drop_take, List.drop_drop, List.take_take, Nat.min_eq_left (by omega)]

/-- What one window writes for one id list. -/
theorem curData_eq {bytes : List UInt8} {featLen itemsize rows : Nat} {window : Nat × Nat}
    (width : 0 < featLen) (size : 0 < itemsize) (whole : bytes.length = rows * (featLen * itemsize))
    (bound : window.2 ≤ rows) (order : window.1 ≤ window.2) (ids : List Nat) :
    curData (reshapeRows (featLen * itemsize)
        (fromfile bytes (window.1 * featLen) ((window.2 - window.1) * featLen) itemsize))
        window ids =
      ((curInd window ids).map (readRow bytes featLen itemsize window.1)).flatten := by
  have positive : 0 < featLen * itemsize := Nat.mul_pos width size
  have fits : window.1 * featLen + (window.2 - window.1) * (featLen * itemsize) ≤ bytes.length := by
    have early : window.1 * featLen ≤ window.1 * (featLen * itemsize) :=
      Nat.mul_le_mul_left _ (Nat.le_mul_of_pos_right _ size)
    have split : window.1 * (featLen * itemsize) + (window.2 - window.1) * (featLen * itemsize) =
        window.2 * (featLen * itemsize) := by
      rw [← Nat.add_mul, Nat.add_sub_cancel' order]
    have last : window.2 * (featLen * itemsize) ≤ rows * (featLen * itemsize) :=
      Nat.mul_le_mul_right _ bound
    omega
  unfold curData gather
  rw [List.map_map]
  congr 1
  apply List.map_congr_left
  intro x member
  rw [curInd_eq_filter, List.mem_filter, inWindow_iff] at member
  have inside : x - window.1 < window.2 - window.1 := by omega
  simp only [Function.comp_apply, fromfile, Nat.mul_assoc]
  rw [reshapeRows_getD positive fits inside]
  rfl

/-! ## The save loop -/

/-- The tensor one window saves for one id list. -/
def windowTensor (npType : DType) (featLen : Nat) (rowData : List (List UInt8))
    (window : Nat × Nat) (ids : List Nat) : Tensor :=
  ⟨npType, [(curInd window ids).length, featLen], curData rowData window ids⟩

/-- The inner `for` loop: every list saves its tensor. -/
def saveAll (tensorOf : List Nat → Tensor) (addSave : Bool) (jobs : List (List Nat × String))
    (store : BinStore) : BinStore :=
  jobs.foldl (fun store job => saveBin store (tensorOf job.1) job.2 addSave) store

theorem saveAll_cons (tensorOf : List Nat → Tensor) (addSave : Bool) (job : List Nat × String)
    (jobs : List (List Nat × String)) (store : BinStore) :
    saveAll tensorOf addSave (job :: jobs) store =
      saveAll tensorOf addSave jobs (saveBin store (tensorOf job.1) job.2 addSave) :=
  rfl

theorem saveAll_other {tensorOf : List Nat → Tensor} {addSave : Bool}
    {jobs : List (List Nat × String)} {path : String}
    (other : path ∉ jobs.map fun job => binPath job.2) (store : BinStore) :
    (saveAll tensorOf addSave jobs store).files path = store.files path ∧
      (saveAll tensorOf addSave jobs store).entry path = store.entry path := by
  induction jobs generalizing store with
  | nil => exact ⟨rfl, rfl⟩
  | cons job jobs ih =>
      simp only [List.map_cons, List.mem_cons, not_or] at other
      have rest := ih other.2 (saveBin store (tensorOf job.1) job.2 addSave)
      rw [saveBin_files, saveBin_entry, Function.update_of_ne other.1,
        Function.update_of_ne other.1] at rest
      rw [saveAll_cons]
      exact rest

/-- With distinct names every list's file and entry change by its own save only. -/
theorem saveAll_own {tensorOf : List Nat → Tensor} {addSave : Bool}
    {jobs : List (List Nat × String)} (distinct : (jobs.map fun job => binPath job.2).Nodup)
    (store : BinStore) {job : List Nat × String} (member : job ∈ jobs) :
    (saveAll tensorOf addSave jobs store).files (binPath job.2) =
        some (savedBytes (tensorOf job.1) addSave (store.files (binPath job.2))) ∧
      (saveAll tensorOf addSave jobs store).entry (binPath job.2) =
        some (tensorInfo (tensorOf job.1) addSave (store.entry (binPath job.2))) := by
  induction jobs generalizing store with
  | nil => simp at member
  | cons head jobs ih =>
      simp only [List.map_cons, List.nodup_cons] at distinct
      rcases List.mem_cons.mp member with rfl | later
      · have kept := @saveAll_other tensorOf addSave jobs (binPath job.2) distinct.1
          (saveBin store (tensorOf job.1) job.2 addSave)
        rw [saveBin_files, saveBin_entry, Function.update_self, Function.update_self] at kept
        rw [saveAll_cons]
        exact kept
      · have apart : binPath job.2 ≠ binPath head.2 := by
          intro same
          apply distinct.1
          rw [← same]
          exact List.mem_map.mpr ⟨job, later, rfl⟩
        have rest := ih distinct.2 (saveBin store (tensorOf head.1) head.2 addSave) later
        rw [saveBin_files, saveBin_entry, Function.update_of_ne apart,
          Function.update_of_ne apart] at rest
        rw [saveAll_cons]
        exact rest

/-! ## The loop over the windows -/

section Run

variable {featPath : String} {jobs : List (List Nat × String)} {featLen rows : Nat}
  {npType : DType} {bytes : List UInt8}

/-- What the store holds after the windows `done`. -/
structure Extracted (featPath : String) (jobs : List (List Nat × String)) (featLen : Nat)
    (npType : DType) (bytes : List UInt8) (done : List (Nat × Nat)) (store : BinStore) : Prop where
  source : store.files featPath = some bytes
  files : ∀ job ∈ jobs, store.files (binPath job.2) =
    some (extractedRows bytes featLen npType.itemsize done job.1).flatten
  entries : ∀ job ∈ jobs, store.entry (binPath job.2) =
    some ⟨npType, [(done.map fun window => (curInd window job.1).length).sum, featLen]⟩

theorem extractWindow_eq {store : BinStore} (source : store.files featPath = some bytes)
    (window : Nat × Nat) :
    extractWindow featPath jobs featLen npType store window =
      some (saveAll (windowTensor npType featLen (reshapeRows (featLen * npType.itemsize)
        (fromfile bytes (window.1 * featLen) ((window.2 - window.1) * featLen) npType.itemsize))
        window) (decide (0 < window.1)) jobs store) := by
  simp [extractWindow, source, saveAll, windowTensor]

/-- The plain saves of the first window. -/
theorem extractWindow_first {store : BinStore} {stop : Nat}
    (distinct : (featPath :: jobs.map fun job => binPath job.2).Nodup) (width : 0 < featLen)
    (whole : bytes.length = rows * (featLen * npType.itemsize)) (bound : stop ≤ rows)
    (source : store.files featPath = some bytes) :
    ∃ saved, extractWindow featPath jobs featLen npType store (0, stop) = some saved ∧
      Extracted featPath jobs featLen npType bytes [(0, stop)] saved := by
  rw [List.nodup_cons] at distinct
  refine ⟨_, extractWindow_eq source (0, stop), ?_, ?_, ?_⟩
  · rw [(saveAll_other distinct.1 store).1, source]
  · intro job member
    have data := @curData_eq bytes featLen npType.itemsize rows (0, stop) width
      npType.itemsize_pos whole bound (Nat.zero_le _) job.1
    rw [(saveAll_own distinct.2 store member).1]
    simp only [windowTensor, savedBytes, data, extractedRows]
    simp
  · intro job member
    rw [(saveAll_own distinct.2 store member).2]
    simp [tensorInfo, windowTensor]

/-- A later window appends to every file and adds to every row count. -/
theorem extractWindow_later {store : BinStore} {done : List (Nat × Nat)} {window : Nat × Nat}
    (distinct : (featPath :: jobs.map fun job => binPath job.2).Nodup) (width : 0 < featLen)
    (whole : bytes.length = rows * (featLen * npType.itemsize)) (later : 0 < window.1)
    (order : window.1 ≤ window.2) (bound : window.2 ≤ rows)
    (before : Extracted featPath jobs featLen npType bytes done store) :
    ∃ saved, extractWindow featPath jobs featLen npType store window = some saved ∧
      Extracted featPath jobs featLen npType bytes (done ++ [window]) saved := by
  rw [List.nodup_cons] at distinct
  refine ⟨_, extractWindow_eq before.source window, ?_, ?_, ?_⟩
  · rw [(saveAll_other distinct.1 store).1, before.source]
  · intro job member
    have data := curData_eq width npType.itemsize_pos whole bound order job.1
    rw [(saveAll_own distinct.2 store member).1, before.files job member]
    simp only [windowTensor, savedBytes, data, extractedRows, later]
    simp
  · intro job member
    rw [(saveAll_own distinct.2 store member).2, before.entries job member]
    simp [tensorInfo, windowTensor, later, addRows, Nat.add_comm]

/-- The rounds after the first one append every remaining window. -/
theorem extractWindows_later {store : BinStore} {done rest : List (Nat × Nat)}
    (distinct : (featPath :: jobs.map fun job => binPath job.2).Nodup) (width : 0 < featLen)
    (whole : bytes.length = rows * (featLen * npType.itemsize))
    (inside : ∀ window ∈ rest, 0 < window.1 ∧ window.1 ≤ window.2 ∧ window.2 ≤ rows)
    (before : Extracted featPath jobs featLen npType bytes done store) :
    ∃ saved, rest.foldlM (extractWindow featPath jobs featLen npType) store = some saved ∧
      Extracted featPath jobs featLen npType bytes (done ++ rest) saved := by
  induction rest generalizing store done with
  | nil => exact ⟨store, rfl, by simpa using before⟩
  | cons window rest ih =>
      obtain ⟨later, order, bound⟩ := inside window (by simp)
      obtain ⟨next, step, holds⟩ :=
        extractWindow_later distinct width whole later order bound before
      obtain ⟨saved, run, final⟩ :=
        ih (fun other member => inside other (by simp [member])) holds
      refine ⟨saved, ?_, by simpa using final⟩
      rw [List.foldlM_cons, step]
      exact run

/-- The whole loop: from any store, every list's file holds its extracted rows. -/
theorem extractWindows {store : BinStore} {windowSize maxFeatLen : Nat}
    (distinct : (featPath :: jobs.map fun job => binPath job.2).Nodup) (width : 0 < featLen)
    (whole : bytes.length = rows * (featLen * npType.itemsize)) (positive : 0 < windowSize)
    (occupied : 0 < maxFeatLen) (bound : maxFeatLen ≤ rows)
    (source : store.files featPath = some bytes) :
    ∃ saved, (windows windowSize maxFeatLen).foldlM
        (extractWindow featPath jobs featLen npType) store = some saved ∧
      Extracted featPath jobs featLen npType bytes (windows windowSize maxFeatLen) saved := by
  obtain ⟨rounds, rfl⟩ : ∃ rounds, maxFeatLen = rounds + 1 := ⟨maxFeatLen - 1, by omega⟩
  have running : ¬ min (0 + windowSize) (rounds + 1) ≤ 0 := by omega
  have unfolded : windows windowSize (rounds + 1) = (0, min (0 + windowSize) (rounds + 1)) ::
      windowsFrom windowSize (rounds + 1) rounds (min (0 + windowSize) (rounds + 1)) := by
    rw [windows, windowsFrom]
    simp only [running, if_false]
  obtain ⟨first, step, holds⟩ := extractWindow_first distinct width whole
    (show min (0 + windowSize) (rounds + 1) ≤ rows by omega) source
  have inside : ∀ window ∈ windowsFrom windowSize (rounds + 1) rounds
      (min (0 + windowSize) (rounds + 1)),
      0 < window.1 ∧ window.1 ≤ window.2 ∧ window.2 ≤ rows := by
    intro window member
    by_cases full : windowSize ≤ rounds + 1
    · rw [Nat.zero_add, Nat.min_eq_left full] at member
      obtain ⟨_, start, order, stop⟩ := mem_windowsFrom (Nat.dvd_refl _) member
      exact ⟨by omega, by omega, by omega⟩
    · rw [Nat.min_eq_right (by omega)] at member
      cases rounds with
      | zero => simp [windowsFrom] at member
      | succ rounds => simp [windowsFrom] at member
  obtain ⟨saved, run, final⟩ := extractWindows_later distinct width whole inside holds
  refine ⟨saved, ?_, by simpa [unfolded] using final⟩
  rw [unfolded, List.foldlM_cons, step]
  exact run

end Run

/-! ## The largest id -/

theorem le_foldl_max (ids : List Nat) (init : Nat) :
    init ≤ ids.foldl max init ∧ ∀ x ∈ ids, x ≤ ids.foldl max init := by
  induction ids generalizing init with
  | nil => simp
  | cons y ids ih =>
      obtain ⟨above, members⟩ := ih (max init y)
      refine ⟨by simp only [List.foldl_cons]; omega, ?_⟩
      intro x member
      rcases List.mem_cons.mp member with rfl | later
      · simp only [List.foldl_cons]
        omega
      · exact members x later

theorem foldl_max_mem (ids : List Nat) (init : Nat) :
    ids.foldl max init = init ∨ ids.foldl max init ∈ ids := by
  induction ids generalizing init with
  | nil => simp
  | cons y ids ih =>
      rcases ih (max init y) with same | member
      · rcases Nat.le_total init y with below | above
        · rw [Nat.max_eq_right below] at same
          exact Or.inr (List.mem_cons.mpr (Or.inl (by
            rw [List.foldl_cons, Nat.max_eq_right below, same])))
        · rw [Nat.max_eq_left above] at same
          exact Or.inl (by rw [List.foldl_cons, Nat.max_eq_left above, same])
      · right
        simp [member]

/-- What `max(his_max)` returns: an entry with the largest value, and the first
entry unless a strictly larger value follows. -/
theorem pyMax_cons (first : HisMax) (rest : List HisMax) :
    ∃ best, pyMax (first :: rest) = some best ∧ best ∈ first :: rest ∧
      (∀ entry ∈ first :: rest, entry.value ≤ best.value) ∧
      (best = first ∨ first.value < best.value) := by
  refine ⟨_, rfl, ?_⟩
  induction rest generalizing first with
  | nil => simp
  | cons entry rest ih =>
      simp only [List.foldl_cons]
      by_cases larger : first.value < entry.value
      · simp only [larger, if_true]
        obtain ⟨member, above, later⟩ := ih entry
        have bound := above entry (by simp)
        refine ⟨List.mem_cons_of_mem _ member, ?_, Or.inr (by omega)⟩
        intro other inside
        rcases List.mem_cons.mp inside with rfl | inside
        · omega
        · exact above other inside
      · simp only [larger, if_false]
        obtain ⟨member, above, later⟩ := ih first
        have bound := above first (by simp)
        refine ⟨?_, ?_, later⟩
        · rcases List.mem_cons.mp member with same | inside
          · exact List.mem_cons.mpr (Or.inl same)
          · exact List.mem_cons_of_mem _ (List.mem_cons_of_mem _ inside)
        · intro other inside
          rcases List.mem_cons.mp inside with rfl | inside
          · exact bound
          · rcases List.mem_cons.mp inside with rfl | inside
            · omega
            · exact above other (List.mem_cons_of_mem _ inside)

theorem HisMax.le_ofIds {ids : List Nat} {x : Nat} (member : x ∈ ids) :
    x ≤ (HisMax.ofIds ids).value := by
  have occupied : 0 < ids.length := List.length_pos_of_mem member
  simp only [HisMax.ofIds, occupied, if_true, HisMax.value]
  exact (le_foldl_max ids 0).2 x member

theorem HisMax.ofIds_tensor {ids : List Nat} {value : Nat}
    (tensor : HisMax.ofIds ids = .tensor value) : value ∈ ids := by
  unfold HisMax.ofIds at tensor
  split at tensor
  · next occupied =>
      injection tensor with same
      rcases foldl_max_mem ids 0 with zero | member
      · obtain ⟨x, member⟩ := List.exists_mem_of_length_pos occupied
        have bound := (le_foldl_max ids 0).2 x member
        have atX : value = x := by omega
        exact atX ▸ member
      · exact same ▸ member
  · contradiction

theorem HisMax.ofIds_int {ids : List Nat} {value : Nat}
    (int : HisMax.ofIds ids = .int value) : ids = [] ∧ value = 0 := by
  unfold HisMax.ofIds at int
  split at int
  · contradiction
  · next empty =>
      injection int with zero
      exact ⟨List.eq_nil_of_length_eq_zero (by omega), zero.symm⟩

/-- `max(his_max).item()` raises: the first list is empty and no id is above 0. -/
def MaxIsInt (his : List (List Nat)) : Prop :=
  his.head? = some [] ∧ ∀ ids ∈ his, ∀ x ∈ ids, x = 0

instance (his : List (List Nat)) : Decidable (MaxIsInt his) :=
  inferInstanceAs (Decidable (_ ∧ _))

theorem maxItem_none {his : List (List Nat)} (raises : MaxIsInt his) :
    ((pyMax (his.map HisMax.ofIds)).bind HisMax.item) = none := by
  obtain ⟨head, zero⟩ := raises
  cases his with
  | nil => rfl
  | cons ids rest =>
      obtain rfl : ids = [] := by simpa using head
      obtain ⟨best, largest, member, above, last⟩ :=
        pyMax_cons (HisMax.ofIds []) (rest.map HisMax.ofIds)
      rw [List.map_cons, largest, Option.bind_some]
      rcases last with rfl | positive
      · rfl
      · obtain ⟨ids, inside, rfl⟩ := List.mem_map.mp
          (show best ∈ ([] :: rest).map HisMax.ofIds from member)
        cases tensor : HisMax.ofIds ids with
        | int value => rfl
        | tensor value =>
            have isZero := zero ids inside value (HisMax.ofIds_tensor tensor)
            rw [tensor, isZero] at positive
            exact absurd positive (by simp [HisMax.value, HisMax.ofIds])

/-- Otherwise it is the largest id of all lists. -/
theorem maxItem_some {his : List (List Nat)} (occupied : his ≠ []) (fine : ¬ MaxIsInt his) :
    ∃ maxId, ((pyMax (his.map HisMax.ofIds)).bind HisMax.item) = some maxId ∧
      (∃ ids ∈ his, maxId ∈ ids) ∧ ∀ ids ∈ his, ∀ x ∈ ids, x ≤ maxId := by
  cases his with
  | nil => exact absurd rfl occupied
  | cons ids rest =>
      obtain ⟨best, largest, member, above, last⟩ :=
        pyMax_cons (HisMax.ofIds ids) (rest.map HisMax.ofIds)
      have bounded : ∀ other ∈ ids :: rest, ∀ x ∈ other, x ≤ best.value := by
        intro other inside x atX
        exact Nat.le_trans (HisMax.le_ofIds atX) (above _
          (show HisMax.ofIds other ∈ (ids :: rest).map HisMax.ofIds from
            List.mem_map_of_mem inside))
      obtain ⟨other, inside, same⟩ := List.mem_map.mp
        (show best ∈ (ids :: rest).map HisMax.ofIds from member)
      rw [List.map_cons, largest, Option.bind_some]
      cases shape : best with
      | tensor value =>
          exact ⟨value, rfl, ⟨other, inside, HisMax.ofIds_tensor (same.trans shape)⟩,
            fun other inside x atX => by simpa [shape, HisMax.value] using bounded other inside x atX⟩
      | int value =>
          -- An integer is the first entry, and it bounds every id by zero.
          obtain ⟨_, rfl⟩ := HisMax.ofIds_int (same.trans shape)
          rcases last with rfl | positive
          · obtain ⟨rfl, _⟩ := HisMax.ofIds_int shape
            refine absurd ⟨rfl, ?_⟩ fine
            intro other inside x atX
            have bound := bounded other inside x atX
            rw [shape, HisMax.value] at bound
            omega
          · rw [shape] at positive
            exact absurd positive (by simp [HisMax.value])

/-! ## What is loaded back -/

section Loaded

variable {featPath : String} {savePaths : List String} {windowSize featLen rows : Nat}
  {his : List (List Nat)} {npType : DType} {F : List (List UInt8)}

theorem readRow_length {bytes : List UInt8} {itemsize start x : Nat} (size : 0 < itemsize)
    (whole : bytes.length = rows * (featLen * itemsize)) (after : start ≤ x) (bound : x < rows) :
    (readRow bytes featLen itemsize start x).length = featLen * itemsize := by
  have early : start * featLen ≤ start * (featLen * itemsize) :=
    Nat.mul_le_mul_left _ (Nat.le_mul_of_pos_right _ size)
  have split : start * (featLen * itemsize) + (x - start) * (featLen * itemsize) =
      x * (featLen * itemsize) := by
    rw [← Nat.add_mul, Nat.add_sub_cancel' after]
  have last : x * (featLen * itemsize) + featLen * itemsize ≤ rows * (featLen * itemsize) := by
    calc x * (featLen * itemsize) + featLen * itemsize = (x + 1) * (featLen * itemsize) :=
          (Nat.succ_mul _ _).symm
      _ ≤ rows * (featLen * itemsize) := Nat.mul_le_mul_right _ bound
  simp only [readRow, List.length_take, List.length_drop]
  omega

theorem flatten_length {rowBytes : Nat} {F : List (List UInt8)}
    (regular : ∀ row ∈ F, row.length = rowBytes) : F.flatten.length = F.length * rowBytes := by
  induction F with
  | nil => simp
  | cons row F ih =>
      have size := regular row (by simp)
      have rest := ih fun other member => regular other (by simp [member])
      rw [List.flatten_cons, List.length_append, size, rest, List.length_cons, Nat.add_mul]
      omega

/-- Rows of one width are determined by their bytes. -/
theorem flatten_inj {rowBytes : Nat} {F G : List (List UInt8)}
    (regularF : ∀ row ∈ F, row.length = rowBytes) (regularG : ∀ row ∈ G, row.length = rowBytes)
    (count : F.length = G.length) (bytes : F.flatten = G.flatten) : F = G := by
  induction F generalizing G with
  | nil => exact (List.eq_nil_of_length_eq_zero count.symm).symm
  | cons row F ih =>
      cases G with
      | nil => simp at count
      | cons row' G =>
          have sameSize : row.length = row'.length := by
            rw [regularF row (by simp), regularG row' (by simp)]
          obtain ⟨rfl, rest⟩ := List.append_inj (by simpa using bytes) sameSize
          rw [ih (fun other member => regularF other (by simp [member]))
            (fun other member => regularG other (by simp [member])) (by simpa using count) rest]

/-- The ids of one window are in the window, and the window is in the file. -/
theorem mem_extracted {maxId : Nat} (bound : maxId < rows) {window : Nat × Nat} {x : Nat}
    {ids : List Nat} (visited : window ∈ windows windowSize (maxId + 1))
    (member : x ∈ curInd window ids) :
    windowSize ∣ window.1 ∧ window.1 ≤ x ∧ x < window.2 ∧ window.2 ≤ window.1 + windowSize ∧
      x < rows ∧ x ∈ ids := by
  obtain ⟨divides, _, _, stop⟩ := mem_windowsFrom (Nat.dvd_zero _) visited
  rw [curInd_eq_filter, List.mem_filter, inWindow_iff] at member
  exact ⟨divides, member.2.1, member.2.2, by omega, by omega, member.1⟩

theorem extractedRows_regular {bytes : List UInt8} {maxId : Nat}
    (whole : bytes.length = rows * (featLen * npType.itemsize)) (bound : maxId < rows)
    (ids : List Nat) :
    ∀ row ∈ extractedRows bytes featLen npType.itemsize (windows windowSize (maxId + 1)) ids,
      row.length = featLen * npType.itemsize := by
  intro row member
  obtain ⟨window, visited, inside⟩ := List.mem_flatMap.mp member
  obtain ⟨x, inWindow, rfl⟩ := List.mem_map.mp inside
  obtain ⟨_, after, _, _, inFile, _⟩ := mem_extracted bound visited inWindow
  exact readRow_length npType.itemsize_pos whole after inFile

theorem extractedRows_length {bytes : List UInt8} {maxId itemsize : Nat} (positive : 0 < windowSize)
    {ids : List Nat} (bounded : ∀ x ∈ ids, x ≤ maxId) :
    (extractedRows bytes featLen itemsize (windows windowSize (maxId + 1)) ids).length =
      ids.length := by
  have counted : ((windows windowSize (maxId + 1)).map
      fun window => (curInd window ids).length).sum = (ids.filter fun x => decide (0 ≤ x)).length :=
    windowsFrom_count positive (by omega) ids fun x member => Nat.lt_succ_of_le (bounded x member)
  simpa [extractedRows, List.length_flatMap] using counted

/-- The closed form of `stream_extract` followed by `loadBin`, for every input
on which `max(his_max).item()` does not raise. -/
theorem streamExtract_loads {store : BinStore} (width : 0 < featLen) (positive : 0 < windowSize)
    (occupied : his ≠ []) (fine : ¬ MaxIsInt his)
    (distinct : (featPath :: (his.zip (curSavePaths savePaths)).map fun job =>
      binPath job.2).Nodup)
    (bounded : ∀ ids ∈ his, ∀ x ∈ ids, x < rows) (height : F.length = rows)
    (regular : ∀ row ∈ F, row.length = featLen * npType.itemsize)
    (source : store.files featPath = some F.flatten) :
    ∃ maxId saved, (∃ ids ∈ his, maxId ∈ ids) ∧ (∀ ids ∈ his, ∀ x ∈ ids, x ≤ maxId) ∧
      streamExtract store featPath savePaths windowSize his (his.map HisMax.ofIds) featLen npType =
        some saved ∧
      ∀ job ∈ his.zip (curSavePaths savePaths), ∃ after,
        loadBin saved.freshProcess job.2 =
          .ok (some ⟨loadedDType npType (binPath job.2), [job.1.length, featLen],
            (extractedRows F.flatten featLen npType.itemsize (windows windowSize (maxId + 1))
              job.1).flatten⟩, after) := by
  obtain ⟨maxId, item, largest, above⟩ := maxItem_some occupied fine
  have inFile : maxId < rows := by
    obtain ⟨ids, inHis, member⟩ := largest
    exact bounded ids inHis maxId member
  have whole : F.flatten.length = rows * (featLen * npType.itemsize) := by
    rw [flatten_length regular, height]
  obtain ⟨saved, run, final⟩ := extractWindows distinct width whole positive
    (Nat.succ_pos maxId) inFile source
  refine ⟨maxId, flushSaveBinConf saved, largest, above, ?_, ?_⟩
  · unfold streamExtract
    obtain ⟨best, isBest, isItem⟩ := Option.bind_eq_some_iff.mp item
    simp [isBest, isItem, run]
  · intro job member
    have inHis : job.1 ∈ his := (List.of_mem_zip member).1
    have rowsWritten : (extractedRows F.flatten featLen npType.itemsize
        (windows windowSize (maxId + 1)) job.1).length = job.1.length :=
      extractedRows_length positive (above job.1 inHis)
    have count : ((windows windowSize (maxId + 1)).map
        fun window => (curInd window job.1).length).sum = job.1.length := by
      simpa [extractedRows, List.length_flatMap] using rowsWritten
    have entry := final.entries job member
    rw [count] at entry
    refine loadBin_freshProcess entry (final.files job member) ?_
    have size : (extractedRows F.flatten featLen npType.itemsize
        (windows windowSize (maxId + 1)) job.1).flatten.length =
          job.1.length * (featLen * npType.itemsize) := by
      rw [flatten_length (extractedRows_regular whole inFile job.1), rowsWritten]
    have items : job.1.length * (featLen * npType.itemsize) / npType.itemsize =
        job.1.length * featLen := by
      rw [← Nat.mul_assoc, Nat.mul_div_cancel _ npType.itemsize_pos]
    simp only [reshaped, size, items, List.prod_cons, List.prod_nil, Nat.mul_one, if_true]
    rw [List.take_of_length_le]
    rw [size, Nat.mul_assoc]

end Loaded

end Dolphin.Store
