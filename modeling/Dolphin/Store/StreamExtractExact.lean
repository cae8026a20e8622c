import Dolphin.Store.StreamExtract

/-!
# When `stream_extract` writes the requested rows

The offset passed to `np.fromfile` counts elements where the function expects
bytes, the windows append in window order, and `max(his_max).item()` needs a
tensor. So the written rows are the requested ones exactly under
`StreamExtractExact`: everything lies in the first window, or the elements have
one byte and every list is in window order.
-/

namespace Dolphin.Store

/-! ## When the rows are the requested ones -/

private theorem filter_append_split {p q r : Nat → Bool} {ids : List Nat}
    (covers : ∀ x ∈ ids, r x = true ↔ p x = true ∨ q x = true)
    (disjoint : ∀ x ∈ ids, ¬ (p x = true ∧ q x = true))
    (ordered : ids.Pairwise fun a b => ¬ (q a = true ∧ p b = true)) :
    ids.filter p ++ ids.filter q = ids.filter r := by
  induction ids with
  | nil => rfl
  | cons x ids ih =>
      rw [List.pairwise_cons] at ordered
      have tail := ih (fun y member => covers y (by simp [member]))
        (fun y member => disjoint y (by simp [member])) ordered.2
      have covered := covers x (by simp)
      have apart := disjoint x (by simp)
      simp only [List.filter_cons]
      cases hq : q x with
      | false => cases hp : p x <;> cases hr : r x <;> simp_all
      | true =>
          have none : ids.filter p = [] := by
            rw [List.filter_eq_nil_iff]
            intro y member early
            exact ordered.1 y member ⟨hq, early⟩
          have hp : p x = false := by simpa [hq] using apart
          have hr : r x = true := covered.mpr (Or.inr hq)
          simpa [hp, hr, none] using tail

/-- At the last row no window is left. -/
theorem windowsFrom_end (windowSize maxFeatLen rounds : Nat) :
    windowsFrom windowSize maxFeatLen rounds maxFeatLen = [] := by
  cases rounds with
  | zero => rfl
  | succ rounds => simp [windowsFrom]

/-- Ids listed in window order are extracted in their own order. -/
theorem windowsFrom_flatMap {windowSize maxFeatLen rounds start : Nat} (positive : 0 < windowSize)
    (multiple : windowSize ∣ start) (enough : maxFeatLen ≤ start + rounds) {ids : List Nat}
    (bounded : ∀ x ∈ ids, x < maxFeatLen)
    (ordered : ids.Pairwise fun a b => a / windowSize ≤ b / windowSize) :
    (windowsFrom windowSize maxFeatLen rounds start).flatMap (fun window => curInd window ids) =
      ids.filter fun x => decide (start ≤ x) := by
  induction rounds generalizing start with
  | zero =>
      have past : maxFeatLen ≤ start := enough
      rw [windowsFrom, List.flatMap_nil, filter_past_end past bounded]
  | succ rounds ih =>
      rw [windowsFrom]
      by_cases ended : min (start + windowSize) maxFeatLen ≤ start
      · have past : maxFeatLen ≤ start := by omega
        rw [if_pos ended, List.flatMap_nil, filter_past_end past bounded]
      · simp only [ended, if_false, List.flatMap_cons]
        by_cases full : start + windowSize ≤ maxFeatLen
        · rw [Nat.min_eq_left full, ih (Nat.dvd_add multiple (Nat.dvd_refl _)) (by omega),
            curInd_eq_filter]
          apply filter_append_split
          · intro x _
            simp only [inWindow, Bool.and_eq_true, decide_eq_true_eq]
            omega
          · intro x _
            simp only [inWindow, Bool.and_eq_true, decide_eq_true_eq]
            omega
          · obtain ⟨before, rfl⟩ := multiple
            apply ordered.imp
            intro a b below
            simp only [inWindow, Bool.and_eq_true, decide_eq_true_eq]
            rintro ⟨past, _, early⟩
            have afterA : before + 1 ≤ a / windowSize := by
              rw [Nat.le_div_iff_mul_le positive, Nat.add_mul, Nat.mul_comm before]
              omega
            have atB : b / windowSize < before + 1 := by
              rw [Nat.div_lt_iff_lt_mul positive, Nat.add_mul, Nat.mul_comm before]
              omega
            omega
        · rw [Nat.min_eq_right (by omega), windowsFrom_end, List.flatMap_nil, List.append_nil,
            curInd_eq_filter]
          apply List.filter_congr
          intro x member
          have bound := bounded x member
          simp [inWindow, bound]

/-- The windows visit the ids in window order. -/
theorem windowsFrom_pairwise {windowSize maxFeatLen rounds start : Nat} (positive : 0 < windowSize)
    (multiple : windowSize ∣ start) (ids : List Nat) :
    ((windowsFrom windowSize maxFeatLen rounds start).flatMap
      fun window => curInd window ids).Pairwise fun a b => a / windowSize ≤ b / windowSize := by
  have located : ∀ window x, windowSize ∣ window.1 → window.2 ≤ window.1 + windowSize →
      x ∈ curInd window ids → x / windowSize = window.1 / windowSize := by
    intro window x divides short member
    rw [curInd_eq_filter, List.mem_filter, inWindow_iff] at member
    obtain ⟨before, atStart⟩ := divides
    rw [atStart, Nat.mul_div_cancel_left _ positive]
    apply Nat.div_eq_of_lt_le
    · rw [Nat.mul_comm]
      omega
    · rw [Nat.add_mul, Nat.mul_comm before]
      omega
  induction rounds generalizing start with
  | zero => simp [windowsFrom]
  | succ rounds ih =>
      rw [windowsFrom]
      by_cases ended : min (start + windowSize) maxFeatLen ≤ start
      · simp [ended]
      · simp only [ended, if_false, List.flatMap_cons, List.pairwise_append]
        have here := fun x => located (start, min (start + windowSize) maxFeatLen) x multiple
          (by simp only; omega)
        by_cases full : start + windowSize ≤ maxFeatLen
        · have next : windowSize ∣ min (start + windowSize) maxFeatLen := by
            rw [Nat.min_eq_left full]
            exact Nat.dvd_add multiple (Nat.dvd_refl _)
          refine ⟨?_, ih next, ?_⟩
          · apply List.pairwise_of_forall_mem_list
            intro a inA b inB
            rw [here a inA, here b inB]
          · intro a inA b inB
            obtain ⟨window, visited, inB⟩ := List.mem_flatMap.mp inB
            obtain ⟨divides, after, _, stop⟩ := mem_windowsFrom next visited
            rw [here a inA, located window b divides (by omega) inB]
            apply Nat.div_le_div_right
            simp only
            omega
        · rw [Nat.min_eq_right (by omega)] at here ⊢
          refine ⟨?_, by simp [windowsFrom_end], by simp [windowsFrom_end]⟩
          apply List.pairwise_of_forall_mem_list
          intro a inA b inB
          rw [here a inA, here b inB]

/-- Row `x` of a file of rows is its own range of bytes. -/
theorem flatten_row {rowBytes : Nat} {F : List (List UInt8)}
    (regular : ∀ row ∈ F, row.length = rowBytes) {x : Nat} (bound : x < F.length) :
    (F.flatten.drop (x * rowBytes)).take rowBytes = F.getD x [] := by
  induction F generalizing x with
  | nil => simp at bound
  | cons row F ih =>
      have size := regular row (by simp)
      cases x with
      | zero => simp [← size]
      | succ x =>
          have rest := ih (fun other member => regular other (by simp [member]))
            (show x < F.length by simpa using bound)
          have skip : (x + 1) * rowBytes = row.length + x * rowBytes := by
            rw [size, Nat.add_mul]
            omega
          have gone : row.drop (row.length + x * rowBytes) = [] :=
            List.drop_of_length_le (Nat.le_add_right _ _)
          rw [skip, List.flatten_cons, List.drop_append, gone]
          simpa using rest

/-- In the first window, and for one-byte elements in every window, the row
read for an id is its own. -/
theorem readRow_exact {featLen itemsize start x : Nat} {F : List (List UInt8)}
    (regular : ∀ row ∈ F, row.length = featLen * itemsize) (after : start ≤ x)
    (bound : x < F.length) (exact : start = 0 ∨ itemsize = 1) :
    readRow F.flatten featLen itemsize start x = F.getD x [] := by
  have offset : start * featLen + (x - start) * (featLen * itemsize) = x * (featLen * itemsize) := by
    rcases exact with rfl | rfl
    · simp
    · rw [Nat.mul_one, ← Nat.add_mul, Nat.add_sub_cancel' after]
  rw [readRow, offset, flatten_row regular bound]

section Exact

variable {featPath : String} {savePaths : List String} {windowSize featLen rows : Nat}
  {his : List (List Nat)} {npType : DType} {F : List (List UInt8)}

/-! ## The exact condition -/

/-- The file written for every id list loads as the requested rows, in the
order of the list, for every feature file of `rows` rows. -/
def WritesRequestedRows (featPath : String) (savePaths : List String) (windowSize rows : Nat)
    (his : List (List Nat)) (featLen : Nat) (npType : DType) : Prop :=
  ∀ (store : BinStore) (F : List (List UInt8)), F.length = rows →
    (∀ row ∈ F, row.length = featLen * npType.itemsize) →
    store.files featPath = some F.flatten →
    ∃ saved, streamExtract store featPath savePaths windowSize his (his.map HisMax.ofIds) featLen
        npType = some saved ∧
      ∀ job ∈ his.zip (curSavePaths savePaths), ∃ after,
        loadBin saved.freshProcess job.2 =
          .ok (some ⟨loadedDType npType (binPath job.2), [job.1.length, featLen],
            (job.1.map fun x => F.getD x []).flatten⟩, after)

/-- The largest entry of `his_max` is a tensor, and either every id lies in the
first window or the elements have one byte and every list is in window order. -/
def StreamExtractExact (windowSize : Nat) (his : List (List Nat)) (npType : DType) : Prop :=
  ¬ MaxIsInt his ∧
    ((∀ ids ∈ his, ∀ x ∈ ids, x < windowSize) ∨
      (npType.itemsize = 1 ∧
        ∀ ids ∈ his, ids.Pairwise fun a b => a / windowSize ≤ b / windowSize))

/-- A feature file in which only row `mark` is not zero. -/
def markedRows (rows rowBytes mark : Nat) : List (List UInt8) :=
  List.replicate mark (List.replicate rowBytes 0) ++ List.replicate rowBytes 1 ::
    List.replicate (rows - mark - 1) (List.replicate rowBytes 0)

theorem markedRows_regular (rows rowBytes mark : Nat) :
    ∀ row ∈ markedRows rows rowBytes mark, row.length = rowBytes := by
  intro row member
  simp only [markedRows, List.mem_append, List.mem_cons, List.mem_replicate] at member
  rcases member with ⟨_, rfl⟩ | rfl | ⟨_, rfl⟩ <;> simp

theorem markedRows_length {rows rowBytes mark : Nat} (inside : mark < rows) :
    (markedRows rows rowBytes mark).length = rows := by
  simp [markedRows]
  omega

theorem markedRows_mark (rows rowBytes mark : Nat) :
    (markedRows rows rowBytes mark).getD mark [] = List.replicate rowBytes 1 := by
  simp [markedRows, List.getD_eq_getElem?_getD]

theorem markedRows_other {rows rowBytes mark x : Nat} (bound : x < rows) (other : x ≠ mark) :
    (markedRows rows rowBytes mark).getD x [] = List.replicate rowBytes 0 := by
  rcases Nat.lt_or_gt_of_ne other with before | after
  · simp [markedRows, List.getD_eq_getElem?_getD, List.getElem?_append, before]
  · obtain ⟨k, rfl⟩ : ∃ k, x = mark + 1 + k := ⟨x - mark - 1, by omega⟩
    have notBefore : ¬ mark + 1 + k < mark := by omega
    have position : mark + 1 + k - mark = k + 1 := by omega
    have inside : k < rows - mark - 1 := by omega
    simp [markedRows, List.getD_eq_getElem?_getD, List.getElem?_append, notBefore, position,
      inside]

/-- Before the marked row every byte of the file is zero. -/
theorem markedRows_before {rows rowBytes mark : Nat} {offset : Nat}
    (before : offset < mark * rowBytes) :
    (markedRows rows rowBytes mark).flatten[offset]? = some 0 := by
  have zeros : (List.replicate mark (List.replicate rowBytes (0 : UInt8))).flatten =
      List.replicate (mark * rowBytes) 0 := by
    simp
  rw [markedRows, List.flatten_append, zeros, List.getElem?_append_left (by simpa using before)]
  simp [before]

/-- In the exact cases the extracted rows are the requested ones. -/
theorem writes_of_exact (width : 0 < featLen) (positive : 0 < windowSize) (occupied : his ≠ [])
    (distinct : (featPath :: (his.zip (curSavePaths savePaths)).map fun job =>
      binPath job.2).Nodup)
    (bounded : ∀ ids ∈ his, ∀ x ∈ ids, x < rows) (exact : StreamExtractExact windowSize his npType) :
    WritesRequestedRows featPath savePaths windowSize rows his featLen npType := by
  intro store F height regular source
  obtain ⟨fine, cases⟩ := exact
  obtain ⟨maxId, saved, ⟨_, inHis, ofMax⟩, above, run, loads⟩ := streamExtract_loads width positive
    occupied fine distinct bounded height regular source
  have inFile : maxId < rows := bounded _ inHis _ ofMax
  refine ⟨saved, run, fun job member => ?_⟩
  have inHis : job.1 ∈ his := (List.of_mem_zip member).1
  obtain ⟨after, loaded⟩ := loads job member
  refine ⟨after, ?_⟩
  -- Both cases list the ids in window order and read every row where it lies.
  have order : job.1.Pairwise fun a b => a / windowSize ≤ b / windowSize := by
    rcases cases with single | ⟨_, sorted⟩
    · apply List.pairwise_of_forall_mem_list
      intro a inA b inB
      rw [Nat.div_eq_of_lt (single job.1 inHis a inA), Nat.div_eq_of_lt (single job.1 inHis b inB)]
    · exact sorted job.1 inHis
  have visits : (windows windowSize (maxId + 1)).flatMap (fun window => curInd window job.1) =
      job.1 := by
    have split := windowsFrom_flatMap positive (Nat.dvd_zero windowSize)
      (show maxId + 1 ≤ 0 + (maxId + 1) by omega)
      (fun x atX => Nat.lt_succ_of_le (above job.1 inHis x atX)) order
    simpa [windows] using split
  have rowsRead : extractedRows F.flatten featLen npType.itemsize
      (windows windowSize (maxId + 1)) job.1 = job.1.map fun x => F.getD x [] := by
    calc extractedRows F.flatten featLen npType.itemsize (windows windowSize (maxId + 1)) job.1
        = (windows windowSize (maxId + 1)).flatMap fun window =>
            (curInd window job.1).map fun x => F.getD x [] := by
          rw [extractedRows, List.flatMap_def, List.flatMap_def]
          congr 1
          apply List.map_congr_left
          intro window visited
          apply List.map_congr_left
          intro x inside
          obtain ⟨⟨q, atStart⟩, after, _, _, inRows, atX⟩ := mem_extracted inFile visited inside
          refine readRow_exact regular after (height ▸ inRows) ?_
          rcases cases with single | ⟨oneByte, _⟩
          · have small := single job.1 inHis x atX
            cases q with
            | zero => exact Or.inl (by simpa using atStart)
            | succ q =>
                have large : windowSize ≤ windowSize * (q + 1) :=
                  Nat.le_mul_of_pos_right windowSize (Nat.succ_pos q)
                omega
          · exact Or.inr oneByte
      _ = ((windows windowSize (maxId + 1)).flatMap fun window => curInd window job.1).map
            fun x => F.getD x [] := by
          rw [List.map_flatMap]
      _ = job.1.map fun x => F.getD x [] := by rw [visits]
  rw [loaded, rowsRead]

/-- A job whose file loads as requested has exactly the requested rows. -/
theorem extracted_eq_of_writes (width : 0 < featLen) (positive : 0 < windowSize)
    (occupied : his ≠ []) (fine : ¬ MaxIsInt his)
    (distinct : (featPath :: (his.zip (curSavePaths savePaths)).map fun job =>
      binPath job.2).Nodup)
    (bounded : ∀ ids ∈ his, ∀ x ∈ ids, x < rows)
    (writes : WritesRequestedRows featPath savePaths windowSize rows his featLen npType)
    (height : F.length = rows) (regular : ∀ row ∈ F, row.length = featLen * npType.itemsize) :
    ∃ maxId, (∃ ids ∈ his, maxId ∈ ids) ∧ (∀ ids ∈ his, ∀ x ∈ ids, x ≤ maxId) ∧
      ∀ job ∈ his.zip (curSavePaths savePaths),
        extractedRows F.flatten featLen npType.itemsize (windows windowSize (maxId + 1)) job.1 =
          job.1.map fun x => F.getD x [] := by
  let store : BinStore := ⟨fun _ => some F.flatten, fun _ => none, fun _ => none, fun _ => none⟩
  have source : store.files featPath = some F.flatten := rfl
  obtain ⟨maxId, saved, largest, above, run, loads⟩ := streamExtract_loads width
    positive occupied fine distinct bounded height regular source
  obtain ⟨saved', run', requested⟩ := writes store F height regular source
  obtain rfl : saved' = saved := Option.some.inj (run'.symm.trans run)
  refine ⟨maxId, largest, above, fun job member => ?_⟩
  have inHis : job.1 ∈ his := (List.of_mem_zip member).1
  have inFile : maxId < rows := by
    obtain ⟨ids, inHis, ofMax⟩ := largest
    exact bounded ids inHis maxId ofMax
  have whole : F.flatten.length = rows * (featLen * npType.itemsize) := by
    rw [flatten_length regular, height]
  obtain ⟨after, loaded⟩ := loads job member
  obtain ⟨after', asked⟩ := requested job member
  rw [loaded] at asked
  have bytes := (Tensor.mk.inj (Option.some.inj (Prod.mk.inj (Except.ok.inj asked)).1)).2.2
  refine flatten_inj (extractedRows_regular whole inFile job.1) ?_ ?_ bytes
  · intro row inRows
    obtain ⟨x, atX, rfl⟩ := List.mem_map.mp inRows
    have bound : x < F.length := height ▸ bounded job.1 inHis x atX
    rw [List.getD_eq_getElem?_getD, List.getElem?_eq_getElem bound, Option.getD_some]
    exact regular _ (List.getElem_mem bound)
  · rw [extractedRows_length positive (above job.1 inHis), List.length_map]

/-- Wider elements: the row of the largest id is never read in a later window. -/
theorem not_extracted_mark {maxId : Nat} (width : 0 < featLen) (wide : npType.itemsize ≠ 1)
    (inFile : maxId < rows) (far : windowSize ≤ maxId)
    {ids : List Nat} (above : ∀ x ∈ ids, x ≤ maxId) :
    List.replicate (featLen * npType.itemsize) (1 : UInt8) ∉
      extractedRows (markedRows rows (featLen * npType.itemsize) maxId).flatten featLen
        npType.itemsize (windows windowSize (maxId + 1)) ids := by
  intro member
  obtain ⟨window, visited, inside⟩ := List.mem_flatMap.mp member
  obtain ⟨x, inWin, row⟩ := List.mem_map.mp inside
  obtain ⟨_, after, before, short, _, atX⟩ := mem_extracted inFile visited inWin
  have size : 0 < featLen * npType.itemsize := Nat.mul_pos width npType.itemsize_pos
  have start : window.1 * featLen + (x - window.1) * (featLen * npType.itemsize) <
      maxId * (featLen * npType.itemsize) := by
    have split : window.1 * (featLen * npType.itemsize) +
        (x - window.1) * (featLen * npType.itemsize) = x * (featLen * npType.itemsize) := by
      rw [← Nat.add_mul, Nat.add_sub_cancel' after]
    have top : x * (featLen * npType.itemsize) ≤ maxId * (featLen * npType.itemsize) :=
      Nat.mul_le_mul_right _ (above x atX)
    by_cases first : window.1 = 0
    · have strict : x * (featLen * npType.itemsize) < maxId * (featLen * npType.itemsize) :=
        Nat.mul_lt_mul_of_pos_right (by omega) size
      rw [first] at split ⊢
      omega
    · have shorter : window.1 * featLen < window.1 * (featLen * npType.itemsize) := by
        apply Nat.mul_lt_mul_of_pos_left _ (by omega)
        have two : 2 ≤ npType.itemsize := by
          have := npType.itemsize_pos
          omega
        calc featLen < featLen * 2 := by omega
          _ ≤ featLen * npType.itemsize := Nat.mul_le_mul_left _ two
      omega
  -- The first byte read is zero, the marked row has none.
  have zero : (markedRows rows (featLen * npType.itemsize) maxId).flatten[window.1 * featLen +
      (x - window.1) * (featLen * npType.itemsize)]? = some 0 := markedRows_before start
  have one := congrArg (fun bytes : List UInt8 => bytes[0]?) row
  simp only [readRow, List.getElem?_take, size, if_true, List.getElem?_drop, Nat.add_zero, zero,
    List.getElem?_replicate] at one
  exact absurd one (by decide)

/-- Outside the exact cases some feature file is extracted wrongly. -/
theorem exact_of_writes (width : 0 < featLen) (positive : 0 < windowSize) (occupied : his ≠ [])
    (aligned : savePaths.length = his.length)
    (distinct : (featPath :: (his.zip (curSavePaths savePaths)).map fun job =>
      binPath job.2).Nodup)
    (bounded : ∀ ids ∈ his, ∀ x ∈ ids, x < rows)
    (writes : WritesRequestedRows featPath savePaths windowSize rows his featLen npType) :
    StreamExtractExact windowSize his npType := by
  have jobOf : ∀ ids ∈ his, ∃ path, (ids, path) ∈ his.zip (curSavePaths savePaths) := by
    intro ids inHis
    obtain ⟨i, bound, rfl⟩ := List.mem_iff_getElem.mp inHis
    have bound' : i < (curSavePaths savePaths).length := by simpa [curSavePaths, aligned] using bound
    exact ⟨(curSavePaths savePaths)[i], List.mem_iff_getElem.mpr ⟨i, by simp [bound, bound'], by simp⟩⟩
  have fine : ¬ MaxIsInt his := by
    intro raises
    let F := List.replicate rows (List.replicate (featLen * npType.itemsize) (0 : UInt8))
    let store : BinStore := ⟨fun _ => some F.flatten, fun _ => none, fun _ => none, fun _ => none⟩
    obtain ⟨saved, run, _⟩ := writes store F (by simp [F]) (by simp [F]) rfl
    have none := maxItem_none raises
    simp only [streamExtract, Option.bind_eq_bind, ← Option.bind_assoc, none,
      Option.bind_none] at run
    contradiction
  refine ⟨fine, ?_⟩
  by_cases single : ∀ ids ∈ his, ∀ x ∈ ids, x < windowSize
  · exact Or.inl single
  right
  simp only [not_forall, not_lt] at single
  obtain ⟨far, farHis, farId, atFar, beyond⟩ := single
  have oneByte : npType.itemsize = 1 := by
    by_contra wide
    obtain ⟨top, topItem, ⟨ids, inHis, atTop⟩, topAbove⟩ := maxItem_some occupied fine
    have inFile : top < rows := bounded ids inHis top atTop
    obtain ⟨maxId, ⟨_, maxHis, ofMax⟩, above, rowsEq⟩ := extracted_eq_of_writes width positive
      occupied fine distinct bounded writes (markedRows_length inFile)
      (markedRows_regular rows (featLen * npType.itemsize) top)
    obtain rfl : maxId = top :=
      Nat.le_antisymm (topAbove _ maxHis _ ofMax) (above _ inHis _ atTop)
    obtain ⟨path, job⟩ := jobOf ids inHis
    have asked := List.mem_map_of_mem (f := fun x =>
      (markedRows rows (featLen * npType.itemsize) maxId).getD x []) atTop
    rw [markedRows_mark, ← rowsEq _ job] at asked
    exact not_extracted_mark width wide inFile
      (Nat.le_trans beyond (topAbove _ farHis _ atFar)) (topAbove ids inHis) asked
  refine ⟨oneByte, fun ids inHis => ?_⟩
  obtain ⟨path, job⟩ := jobOf ids inHis
  obtain ⟨top, topItem, ⟨_, topHis, atTop⟩, topAbove⟩ := maxItem_some occupied fine
  have inFile : top < rows := bounded _ topHis top atTop
  -- With one-byte elements the file lists the rows of the ids in window order.
  have listed : ((windows windowSize (top + 1)).flatMap fun window => curInd window ids) = ids := by
    have agree : ∀ mark, mark < rows →
        (((windows windowSize (top + 1)).flatMap fun window => curInd window ids).map
          fun x => (markedRows rows (featLen * npType.itemsize) mark).getD x []) =
        ids.map fun x => (markedRows rows (featLen * npType.itemsize) mark).getD x [] := by
      intro mark inside
      obtain ⟨maxId, ⟨_, maxHis, ofMax⟩, above, rowsEq⟩ := extracted_eq_of_writes width positive
        occupied fine distinct bounded writes (markedRows_length inside)
        (markedRows_regular rows (featLen * npType.itemsize) mark)
      obtain rfl : maxId = top :=
        Nat.le_antisymm (topAbove _ maxHis _ ofMax) (above _ topHis _ atTop)
      rw [← rowsEq _ job, extractedRows, List.map_flatMap, List.flatMap_def, List.flatMap_def]
      congr 1
      apply List.map_congr_left
      intro window visited
      apply List.map_congr_left
      intro x inWin
      obtain ⟨_, after, _, _, inRows, _⟩ := mem_extracted inFile visited inWin
      rw [readRow_exact (markedRows_regular rows _ mark) after
        ((markedRows_length inside).symm ▸ inRows) (Or.inr oneByte)]
    have inRange : ∀ x ∈ (windows windowSize (top + 1)).flatMap fun window => curInd window ids,
        x < rows := by
      intro x member
      obtain ⟨window, visited, inWin⟩ := List.mem_flatMap.mp member
      exact (mem_extracted inFile visited inWin).2.2.2.2.1
    have size : 0 < featLen * npType.itemsize := Nat.mul_pos width npType.itemsize_pos
    have lengths : ((windows windowSize (top + 1)).flatMap fun window => curInd window ids).length =
        ids.length := by
      rcases Nat.eq_zero_or_pos rows with none | some
      · omega
      · simpa using congrArg List.length (agree 0 some)
    apply List.ext_getElem lengths
    intro i left right
    by_contra differ
    have mark : ids[i] < rows := bounded ids inHis _ (List.getElem_mem right)
    have sameRow := congrArg (fun l => l[i]?) (agree ids[i] mark)
    simp only [List.getElem?_map, List.getElem?_eq_getElem left, List.getElem?_eq_getElem right,
      Option.map_some, Option.some.injEq] at sameRow
    rw [markedRows_mark, markedRows_other (inRange _ (List.getElem_mem left)) differ] at sameRow
    have bytes := congrArg (fun bytes : List UInt8 => bytes[0]?) sameRow
    simp only [List.getElem?_replicate, size, if_true] at bytes
    exact absurd bytes (by decide)
  have order : ((windows windowSize (top + 1)).flatMap fun window => curInd window ids).Pairwise
      fun a b => a / windowSize ≤ b / windowSize :=
    windowsFrom_pairwise positive (Nat.dvd_zero windowSize) ids
  rwa [listed] at order

/-- `stream_extract` writes the requested rows of every feature file exactly
under `StreamExtractExact`. -/
theorem streamExtract_writes_iff (width : 0 < featLen) (positive : 0 < windowSize)
    (occupied : his ≠ []) (aligned : savePaths.length = his.length)
    (distinct : (featPath :: (his.zip (curSavePaths savePaths)).map fun job =>
      binPath job.2).Nodup)
    (bounded : ∀ ids ∈ his, ∀ x ∈ ids, x < rows) :
    WritesRequestedRows featPath savePaths windowSize rows his featLen npType ↔
      StreamExtractExact windowSize his npType :=
  ⟨exact_of_writes width positive occupied aligned distinct bounded,
    writes_of_exact width positive occupied distinct bounded⟩

/-- One window for a block list, an empty list and a cache list out of order. -/
theorem streamExtract_writes_one_window :
    WritesRequestedRows "d/node_features.bin"
      ["d/part0_node_feat.bin", "d/part1_node_feat.bin", "d/cache_node_feat_0.pt"] 4 3
      [[0, 2], [], [1, 0]] 1 .float32 :=
  (streamExtract_writes_iff (by decide) (by decide) (by decide) (by decide) (by decide)
    (by decide)).mpr ⟨by decide, Or.inl (by decide)⟩

/-- Two windows of one `float32` row: the second row is read at byte 1. -/
theorem streamExtract_two_windows :
    ¬ WritesRequestedRows "d/node_features.bin" ["d/part0_node_feat.bin"] 1 2 [[0, 1]] 1
      .float32 := by
  intro writes
  obtain ⟨_, single | ⟨oneByte, _⟩⟩ := exact_of_writes (by decide) (by decide) (by decide)
    (by decide) (by decide) (by decide) writes
  · exact absurd (single [0, 1] (by decide) 1 (by decide)) (by decide)
  · exact absurd oneByte (by decide)

end Exact

end Dolphin.Store
