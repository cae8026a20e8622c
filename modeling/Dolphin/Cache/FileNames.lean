import Dolphin.Cache.Flushes

/-!
# The names of the feature files

The texts of the paths, for a directory without a dot: `.bin` becomes `_incre.bin` as in
`SavePath.incre`, the opened file is the one that is loaded, and the lists of one side are
what the store's `stream_extract` saves.
-/

namespace Dolphin.Cache

open Dolphin.Store

/-! ## Extensions -/

/-- What precedes the first dot is copied. -/
theorem replaceFrom_append {old new plain : List Char} (free : '.' ∉ plain) (rest : List Char) :
    replaceFrom ('.' :: old) new 0 (plain ++ rest) =
      plain ++ replaceFrom ('.' :: old) new 0 rest := by
  induction plain with
  | nil => rfl
  | cons char plain ih =>
      rw [List.mem_cons, not_or] at free
      have other : ('.' :: old).isPrefixOf (char :: (plain ++ rest)) = false := by
        simp [List.isPrefixOf, free.1]
      rw [List.cons_append, replaceFrom, other, ih free.2]
      rfl

theorem replace_append {plain old : String} (free : '.' ∉ plain.toList)
    (dot : old.toList.head? = some '.') (rest new : String) :
    replace (plain ++ rest) old new = plain ++ replace rest old new := by
  obtain ⟨tail, spelled⟩ : ∃ tail, old.toList = '.' :: tail := by
    cases letters : old.toList with
    | nil => simp [letters] at dot
    | cons head tail =>
        obtain rfl : head = '.' := by simpa [letters] using dot
        exact ⟨tail, rfl⟩
  apply String.toList_inj.mp
  simp only [replace, String.toList_append, String.toList_ofList, spelled, replaceFrom_append free]

theorem dot_not_mem_toDigits (n : Nat) : '.' ∉ Nat.toDigits 10 n := by
  intro member
  have digit := Nat.isDigit_of_mem_toDigits (by decide) (by decide) member
  exact absurd digit (by decide)

theorem dot_not_mem_word (side : FeatSide) : '.' ∉ side.word.toList := by
  cases side <;> decide

/-- A file name without its extension. -/
def stem (dir : String) : SavedPath → String
  | .part side block false => dir ++ "/part" ++ toString block ++ "_" ++ side.word ++ "_feat"
  | .part side block true =>
      dir ++ "/part" ++ toString block ++ "_" ++ side.word ++ "_feat_incre"
  | .cache side start => dir ++ "/cache_" ++ side.word ++ "_feat_" ++ toString start

theorem dot_not_mem_stem {dir : String} (free : '.' ∉ dir.toList) (path : SavedPath) :
    '.' ∉ (stem dir path).toList := by
  have word := dot_not_mem_word
  have number := dot_not_mem_toDigits
  cases path with
  | part side block incre =>
      cases incre with
      | false => simp [stem, free, word side, number block]
      | true => simp [stem, free, word side, number block]
  | cache side start => simp [stem, free, word side, number start]

/-- `saveBin` and `loadBin` change the extension. -/
theorem binPath_stem {dir : String} (free : '.' ∉ dir.toList) (path : SavedPath) :
    binPath (stem dir path ++ ".pt") = stem dir path ++ ".bin" ∧
      binPath (stem dir path ++ ".bin") = stem dir path ++ ".bin" :=
  ⟨replace_append (dot_not_mem_stem free path) rfl ".pt" ".bin",
    replace_append (dot_not_mem_stem free path) rfl ".bin" ".bin"⟩

theorem toDigits_injective {m n : Nat} (same : Nat.toDigits 10 m = Nat.toDigits 10 n) : m = n := by
  rw [← Nat.ofDigitChars_ten_toDigits (n := m), same, Nat.ofDigitChars_ten_toDigits]

theorem underscore_not_mem_toDigits (n : Nat) : '_' ∉ Nat.toDigits 10 n := by
  intro member
  have digit := Nat.isDigit_of_mem_toDigits (by decide) (by decide) member
  exact absurd digit (by decide)

theorem underscore_not_mem_word (side : FeatSide) : '_' ∉ side.word.toList := by
  cases side <;> decide

theorem word_injective {side other : FeatSide} (same : side.word.toList = other.word.toList) :
    side = other := by
  cases side <;> cases other <;> first | rfl | exact absurd same (by decide)

/-- A text is split at its first mark in one way. -/
theorem split_at_mark {mark : Char} {left right rest rest' : List Char} (free : mark ∉ left)
    (free' : mark ∉ right) (same : left ++ mark :: rest = right ++ mark :: rest') :
    left = right ∧ rest = rest' := by
  induction left generalizing right with
  | nil =>
      cases right with
      | nil => exact ⟨rfl, (List.cons.inj same).2⟩
      | cons char right => exact absurd (by simp [(List.cons.inj same).1]) free'
  | cons char left ih =>
      cases right with
      | nil => exact absurd (by simp [(List.cons.inj same).1]) free
      | cons char' right =>
          obtain ⟨rfl, tails⟩ := List.cons.inj same
          obtain ⟨rfl, ends⟩ := ih (fun member => free (List.mem_cons_of_mem _ member))
            (fun member => free' (List.mem_cons_of_mem _ member)) tails
          exact ⟨rfl, ends⟩

/-- What follows the number in the name of a part. -/
def partEnd (side : FeatSide) (incre : Bool) : List Char :=
  side.word.toList ++ (if incre then "_feat_incre" else "_feat").toList

theorem partEnd_injective {side other : FeatSide} {incre incre' : Bool}
    (same : partEnd side incre = partEnd other incre') : side = other ∧ incre = incre' := by
  cases side <;> cases other <;> cases incre <;> cases incre' <;>
    first | exact ⟨rfl, rfl⟩ | exact absurd same (by decide)

theorem stem_part (dir : String) (side : FeatSide) (block : Nat) (incre : Bool) :
    (stem dir (.part side block incre)).toList =
      dir.toList ++ ("/part".toList ++ (Nat.toDigits 10 block ++ '_' :: partEnd side incre)) := by
  cases incre <;> simp [stem, partEnd]

theorem stem_cache (dir : String) (side : FeatSide) (start : Nat) :
    (stem dir (.cache side start)).toList =
      dir.toList ++ ("/cache_".toList ++
        (side.word.toList ++ '_' :: ("feat_".toList ++ Nat.toDigits 10 start))) := by
  simp [stem]

/-- Different files have different names. -/
theorem stem_injective (dir : String) : Function.Injective (stem dir) := by
  intro left right same
  have letters := congrArg String.toList same
  cases left with
  | part side block incre =>
      cases right with
      | part other block' incre' =>
          rw [stem_part, stem_part, List.append_cancel_left_eq, List.append_cancel_left_eq]
            at letters
          obtain ⟨number, ends⟩ := split_at_mark (underscore_not_mem_toDigits block)
            (underscore_not_mem_toDigits block') letters
          obtain ⟨rfl, rfl⟩ := partEnd_injective ends
          rw [toDigits_injective number]
      | cache other start =>
          rw [stem_part, stem_cache, List.append_cancel_left_eq] at letters
          simp at letters
  | cache side start =>
      cases right with
      | part other block incre =>
          rw [stem_part, stem_cache, List.append_cancel_left_eq] at letters
          simp at letters
      | cache other start' =>
          rw [stem_cache, stem_cache, List.append_cancel_left_eq, List.append_cancel_left_eq]
            at letters
          obtain ⟨word, ends⟩ := split_at_mark (underscore_not_mem_word side)
            (underscore_not_mem_word other) letters
          rw [List.append_cancel_left_eq] at ends
          rw [word_injective word, toDigits_injective ends]

/-! ## Paths -/

/-- The model of `cur_save_path.replace('.bin', '_incre.bin')`. -/
theorem SavePath.replace_text {dir : String} (free : '.' ∉ dir.toList) (path : SavePath) :
    replace (path.text dir) ".bin" "_incre.bin" = path.incre.text dir := by
  cases path with
  | part side block =>
      calc replace ((SavePath.part side block).text dir) ".bin" "_incre.bin"
          = replace (stem dir (.part side block false) ++ ".bin") ".bin" "_incre.bin" := by
            simp [SavePath.text, stem, String.append_assoc]
        _ = stem dir (.part side block false) ++ "_incre.bin" :=
            replace_append (dot_not_mem_stem free _) rfl _ _
        _ = (SavePath.part side block).incre.text dir := by
            simp [SavePath.incre, SavedPath.text, stem, String.append_assoc]
  | cache side start =>
      exact replace_append (dot_not_mem_stem free (.cache side start)) rfl ".pt" _

/-- What is saved under the opened path is what is loaded. -/
theorem SavePath.binPath_loadPath {dir : String} (free : '.' ∉ dir.toList) (path : SavePath) :
    binPath (path.loadPath dir) = binPath (path.opened.text dir) := by
  obtain ⟨fromPt, fromBin⟩ := binPath_stem free path.opened
  cases path with
  | part side block =>
      cases block with
      | zero =>
          have load : (SavePath.part side 0).loadPath dir =
              stem dir (.part side 0 false) ++ ".pt" := by
            simp [SavePath.loadPath, stem, String.append_assoc]
          have saved : (SavePath.part side 0).opened.text dir =
              stem dir (.part side 0 false) ++ ".bin" := by
            simp [SavePath.opened, SavedPath.text, SavePath.text, stem, String.append_assoc]
          rw [load, saved]
          exact fromPt.trans fromBin.symm
      | succ block =>
          have load : (SavePath.part side (block + 1)).loadPath dir =
              stem dir (.part side (block + 1) true) ++ ".pt" := by
            simp [SavePath.loadPath, stem, String.append_assoc]
          have saved : (SavePath.part side (block + 1)).opened.text dir =
              stem dir (.part side (block + 1) true) ++ ".bin" := by
            simp [SavePath.opened, SavedPath.text, stem, String.append_assoc]
          rw [load, saved]
          exact fromPt.trans fromBin.symm
  | cache side start => exact fromBin.trans fromPt.symm

/-- The name under which `saveBin` writes a list. -/
theorem SavedPath.binPath_text {dir : String} (free : '.' ∉ dir.toList) (path : SavedPath) :
    binPath (path.text dir) = stem dir path ++ ".bin" := by
  obtain ⟨fromPt, fromBin⟩ := binPath_stem free path
  cases path with
  | part side block incre =>
      have text : (SavedPath.part side block incre).text dir =
          stem dir (.part side block incre) ++ ".bin" := by
        cases incre <;> simp [SavedPath.text, SavePath.text, stem, String.append_assoc]
      rw [text, fromBin]
  | cache side start => exact fromPt

/-! ## The lists of one side -/

/-- `stream_extract` saves the lists of one side under the texts of their paths. -/
theorem His.jobs_text {dir : String} (free : '.' ∉ dir.toList) (his : His) :
    his.ids.zip (curSavePaths (his.savePaths.map (SavePath.text dir))) =
      his.jobs.map fun job => (job.1, job.2.text dir) := by
  have names : curSavePaths (his.savePaths.map (SavePath.text dir)) =
      (his.savePaths.zipIdx.map fun entry =>
        if 0 < entry.2 then entry.1.incre else entry.1.plain).map (SavedPath.text dir) := by
    rw [curSavePaths, List.zipIdx_map, List.map_map, List.map_map]
    apply List.map_congr_left
    intro entry _
    simp only [Function.comp_apply, Prod.map_fst, Prod.map_snd, id_eq]
    by_cases later : 0 < entry.2
    · rw [if_pos later, if_pos later, entry.1.replace_text free]
    · rw [if_neg later, if_neg later]
      cases entry.1 with
      | part side block => rfl
      | cache side start => rfl
  rw [names, His.jobs, List.zip_map_right]
  rfl

end Dolphin.Cache
