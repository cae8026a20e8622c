import Dolphin.Graph.SearchKernel

/-!
# What the search kernels find

For sorted tables a search ends with the right entry of its index table exactly if it stays
in the table and starts with the entries of its id. Tables of at most 2³⁰ entries are always
searched so, and then the kernels are the searches on natural numbers.
-/

namespace Dolphin.Graph.SearchKernel

open Dolphin.Tensor Dolphin.Semantics

variable {α : Type} [LinearOrder α] [Inhabited α] {table : List α} {id : α}

/-! ## One element -/

theorem outcome_of_overflows (overflows : Overflows table id) :
    outcome table id = .outside ∨ outcome table id = .running := by
  obtain ⟨turns, isOpen, large, below⟩ := overflows
  rw [outcome_eq_search]
  exact search_of_overflow isOpen large below (Nat.zero_add turns) table.length

/-- The thread of an element ends exactly if its sums have an `int`. -/
theorem thread_isSome_iff {hit : Int → Int} {preset : Int} :
    (∃ entry, thread hit table id preset = some entry) ↔ ¬ Overflows table id := by
  constructor
  · rintro ⟨entry, ended⟩ overflows
    rw [thread] at ended
    rcases outcome_of_overflows overflows with outside | running
    · rw [outside] at ended
      cases ended
    · rw [running] at ended
      cases ended
  · intro inside
    rw [thread, outcome_eq inside]
    cases Graph.findIndexAndSet table id table.length 0 (reach table.length) with
    | none => exact ⟨preset, rfl⟩
    | some mid => exact ⟨hit mid, rfl⟩

/-- The search on natural numbers hits exactly the ids of the entries that it starts with. -/
theorem found_iff (sorted : table.Pairwise (· ≤ ·)) :
    (∃ mid, Graph.findIndexAndSet table id table.length 0 (reach table.length) = some mid) ↔
      id ∈ table.take (reach table.length) := by
  have bounded := reach_le table.length
  constructor
  · rintro ⟨mid, found⟩
    refine List.mem_of_getElem? (i := mid) ?_
    rw [List.getElem?_take_of_lt (findIndexAndSet_lt found)]
    exact findIndexAndSet_sound bounded found
  · intro occurs
    obtain ⟨k, entry⟩ := List.getElem?_of_mem occurs
    have early : k < reach table.length := by
      by_contra late
      rw [List.getElem?_take_eq_none (Nat.le_of_not_lt late)] at entry
      cases entry
    rw [List.getElem?_take_of_lt early] at entry
    exact findIndexAndSet_complete sorted bounded (by omega) (Nat.zero_le k) early entry

/-- What a thread that ends leaves in its place. -/
theorem thread_spec (sorted : table.Pairwise (· ≤ ·)) (inside : ¬ Overflows table id)
    (hit : Int → Int) (preset : Int) :
    (id ∈ table.take (reach table.length) ∧ ∃ mid : Nat,
      thread hit table id preset = some (hit mid) ∧ table[mid]? = some id) ∨
    (id ∉ table.take (reach table.length) ∧ thread hit table id preset = some preset) := by
  by_cases occurs : id ∈ table.take (reach table.length)
  · obtain ⟨mid, found⟩ := (found_iff sorted).mpr occurs
    refine Or.inl ⟨occurs, mid, ?_, findIndexAndSet_sound (reach_le _) found⟩
    rw [thread, outcome_eq inside, found]
    rfl
  · have missed : Graph.findIndexAndSet table id table.length 0 (reach table.length) = none :=
      Option.eq_none_iff_forall_ne_some.mpr fun mid found =>
        occurs ((found_iff sorted).mp ⟨mid, found⟩)
    refine Or.inr ⟨occurs, ?_⟩
    rw [thread, outcome_eq inside, missed]
    rfl

theorem locates_iff (sorted : table.Pairwise (· ≤ ·)) :
    (∃ index, findIndexAndSet table id (-1) = some index ∧ Locates table id index) ↔
      Fits table id := by
  constructor
  · rintro ⟨index, ended, located⟩
    have inside := thread_isSome_iff.mp ⟨index, ended⟩
    refine ⟨inside, fun occurs => ?_⟩
    rcases thread_spec sorted inside (fun mid => mid) (-1) with ⟨early, -⟩ | ⟨-, unset⟩
    · exact early
    · obtain rfl : -1 = index := Option.some.inj (unset.symm.trans ended)
      rcases located with ⟨j, negative, -⟩ | ⟨-, missing⟩
      · omega
      · exact absurd occurs missing
  · rintro ⟨inside, early⟩
    rcases thread_spec sorted inside (fun mid => mid) (-1) with ⟨-, mid, ended, entry⟩ | ⟨late, ended⟩
    · exact ⟨mid, ended, Or.inl ⟨mid, rfl, entry⟩⟩
    · exact ⟨-1, ended, Or.inr ⟨rfl, fun occurs => late (early occurs)⟩⟩

theorem marks_iff (sorted : table.Pairwise (· ≤ ·)) :
    (∃ mark, findIndex table id (-1) = some mark ∧ Marks table id mark) ↔ Fits table id := by
  constructor
  · rintro ⟨mark, ended, marked⟩
    have inside := thread_isSome_iff.mp ⟨mark, ended⟩
    refine ⟨inside, fun occurs => ?_⟩
    rcases thread_spec sorted inside (fun _ => 1) (-1) with ⟨early, -⟩ | ⟨-, unset⟩
    · exact early
    · obtain rfl : -1 = mark := Option.some.inj (unset.symm.trans ended)
      rw [Marks, if_pos occurs] at marked
      cases marked
  · rintro ⟨inside, early⟩
    rcases thread_spec sorted inside (fun _ => 1) (-1) with ⟨-, mid, ended, entry⟩ | ⟨late, ended⟩
    · exact ⟨1, ended, (if_pos (List.mem_of_getElem? entry)).symm⟩
    · exact ⟨-1, ended, (if_neg fun occurs => late (early occurs)).symm⟩

/-! ## Both tables -/

omit [LinearOrder α] [Inhabited α] in
/-- Each entry of an unset index table is what the thread of its element leaves. -/
theorem mapM_unset (device : List α → α → Int → Option Int) (t table : List α) :
    (t.zip (unset t)).mapM (fun entry => device table entry.1 entry.2) =
      t.mapM fun id => device table id (-1) := by
  have pairs : t.zip (unset t) = t.map fun id => (id, -1) := by
    rw [unset]
    induction t with
    | nil => rfl
    | cons id t ih =>
        rw [List.length_cons, List.replicate_succ, List.zip_cons_cons, ih, List.map_cons]
  rw [pairs, List.mapM_map]
  rfl

omit [LinearOrder α] [Inhabited α] in
theorem launch_eq (device : List α → α → Int → Option Int) (t1 t2 : List α) :
    launch device t1 t2 (unset t1) (unset t2) =
      (t1.mapM fun id => device t2 id (-1)).bind fun first =>
        (t2.mapM fun id => device t1 id (-1)).bind fun second => some (first, second) := by
  rw [← mapM_unset, ← mapM_unset]
  rfl

omit [LinearOrder α] [Inhabited α] in
/-- A launch does its work exactly if each thread of both halves does. -/
theorem launch_iff {device : List α → α → Int → Option Int} {R : List α → α → Int → Prop}
    {t1 t2 : List α} :
    (∃ tables, launch device t1 t2 (unset t1) (unset t2) = some tables ∧
      List.Forall₂ (R t2) t1 tables.1 ∧ List.Forall₂ (R t1) t2 tables.2) ↔
    (∀ id ∈ t1, ∃ entry, device t2 id (-1) = some entry ∧ R t2 id entry) ∧
      ∀ id ∈ t2, ∃ entry, device t1 id (-1) = some entry ∧ R t1 id entry := by
  rw [← exists_mapM_forall₂_iff, ← exists_mapM_forall₂_iff, launch_eq]
  constructor
  · rintro ⟨tables, ended, first, second⟩
    obtain ⟨table1, run1, ended⟩ := Option.bind_eq_some_iff.mp ended
    obtain ⟨table2, run2, same⟩ := Option.bind_eq_some_iff.mp ended
    obtain rfl := Option.some.inj same
    exact ⟨⟨table1, run1, first⟩, table2, run2, second⟩
  · rintro ⟨⟨table1, run1, first⟩, table2, run2, second⟩
    refine ⟨(table1, table2), ?_, first, second⟩
    rw [run1, run2]
    rfl

/-- When the kernel ends, each of its searches has. -/
theorem not_overflows_of_kernel {t1 t2 : List α} {tables : List Int × List Int}
    (ended : toFindSameIndexKernel t1 t2 (unset t1) (unset t2) = some tables) :
    (∀ id ∈ t1, ¬ Overflows t2 id) ∧ ∀ id ∈ t2, ¬ Overflows t1 id := by
  rw [toFindSameIndexKernel, launch_eq] at ended
  obtain ⟨table1, run1, ended⟩ := Option.bind_eq_some_iff.mp ended
  obtain ⟨table2, run2, -⟩ := Option.bind_eq_some_iff.mp ended
  constructor
  · intro id member
    exact thread_isSome_iff.mp (mapM_isSome_iff.mp ⟨table1, run1⟩ id member)
  · intro id member
    exact thread_isSome_iff.mp (mapM_isSome_iff.mp ⟨table2, run2⟩ id member)

theorem matched_iff {t1 t2 : List α} (sorted1 : t1.Pairwise (· ≤ ·))
    (sorted2 : t2.Pairwise (· ≤ ·)) :
    Matched t1 t2 ↔ (∀ id ∈ t1, Fits t2 id) ∧ ∀ id ∈ t2, Fits t1 id := by
  rw [Matched, toFindSameIndexKernel, toFindSameNodeKernel, launch_iff, launch_iff]
  simp only [locates_iff sorted1, locates_iff sorted2, marks_iff sorted1, marks_iff sorted2,
    and_self]

/-! ## `find_indices` -/

theorem wrapIndex_natCast (xs : List Nat) (i : Nat) : wrapIndex xs i = xs[i]? := by
  rw [wrapIndex, if_pos (Int.natCast_nonneg i), Int.toNat_natCast]

/-- The index −1 is the one of the last element. -/
theorem wrapIndex_unset (xs : List Nat) : wrapIndex xs (-1) = xs.getLast? := by
  rw [wrapIndex, if_neg (by decide), List.getLast?_eq_getElem?]
  by_cases empty : xs = []
  · subst empty
    rfl
  · have positive := List.length_pos_iff.mpr empty
    have last : ((xs.length : Int) + -1).toNat = xs.length - 1 := by omega
    rw [if_pos (by omega), last]

/-- The sort permutation leads from an entry of the sorted tensor to one of the tensor. -/
theorem argsort_leads {tensor : List α} {i : Nat} {x : α} :
    (∃ j, (argsort tensor)[i]? = some j ∧ tensor[j]? = some x) ↔ (sort tensor)[i]? = some x := by
  constructor
  · rintro ⟨j, index, entry⟩
    rw [sort_getElem? index, entry]
  · intro entry
    have bound : i < (argsort tensor).length := by
      rw [argsort_length, ← sort_length]
      exact (List.getElem?_eq_some_iff.mp entry).1
    have index := List.getElem?_eq_getElem bound
    exact ⟨_, index, (sort_getElem? index).symm.trans entry⟩

/-- An id is indexed exactly if its search ends and starts with its entries; a missed id is
taken for the last one. -/
theorem indexed_one_iff {tensor : List α} :
    (∃ j, (findIndexAndSet (sort tensor) id (-1)).bind (wrapIndex (argsort tensor)) = some j ∧
      tensor[j]? = some id) ↔
    ¬ Overflows (sort tensor) id ∧
      (id ∈ (sort tensor).take (reach tensor.length) ∨ (sort tensor).getLast? = some id) := by
  have sorted := sort_pairwise tensor
  have missed : (∃ j, wrapIndex (argsort tensor) (-1) = some j ∧ tensor[j]? = some id) ↔
      (sort tensor).getLast? = some id := by
    rw [wrapIndex_unset, List.getLast?_eq_getElem?, List.getLast?_eq_getElem?, argsort_leads,
      argsort_length, sort_length]
  rw [← sort_length]
  constructor
  · rintro ⟨j, run, entry⟩
    obtain ⟨index, ended, leads⟩ := Option.bind_eq_some_iff.mp run
    have inside := thread_isSome_iff.mp ⟨index, ended⟩
    refine ⟨inside, ?_⟩
    rcases thread_spec sorted inside (fun mid => mid) (-1) with ⟨early, -⟩ | ⟨-, unset⟩
    · exact Or.inl early
    · obtain rfl : -1 = index := Option.some.inj (unset.symm.trans ended)
      exact Or.inr (missed.mp ⟨j, leads, entry⟩)
  · rintro ⟨inside, leads⟩
    rcases thread_spec sorted inside (fun mid => mid) (-1) with ⟨-, mid, ended, entry⟩ | ⟨late, ended⟩
    · rw [findIndexAndSet, ended, Option.bind_some, wrapIndex_natCast]
      exact argsort_leads.mpr entry
    · rw [findIndexAndSet, ended, Option.bind_some]
      exact missed.mpr (leads.resolve_left late)

/-- Of two tables the second only has to be there. -/
theorem bind_pair {β γ δ : Type} (first : Option β) (second : Option γ) (next : β → Option δ) :
    ((do
        let table1 ← first
        let table2 ← second
        pure (table1, table2)).bind fun tables => next tables.1) =
      second.bind fun _ => first.bind next := by
  cases first with
  | none => exact (Option.bind_fun_none second).symm
  | some table1 =>
      cases second with
      | none => rfl
      | some table2 => rfl

theorem findIndices_eq (t1 t2 : List α) :
    findIndices t1 t2 =
      ((sort t2).mapM fun id => findIndexAndSet t1 id (-1)).bind fun _ =>
        t1.mapM fun id => (findIndexAndSet (sort t2) id (-1)).bind (wrapIndex (argsort t2)) := by
  have table2 : unset t2 = unset (sort t2) := by rw [unset, unset, sort_length]
  rw [← mapM_bind_mapM, ← mapM_unset, ← mapM_unset, findIndices, toFindSameIndexKernel, launch,
    table2]
  exact bind_pair _ _ fun table1 : List Int => table1.mapM (wrapIndex (argsort t2))

/-- An id whose search leaves the tensor ends `find_indices`. -/
theorem findIndices_none {t1 t2 : List α} (member : id ∈ t1) (overflows : Overflows (sort t2) id) :
    findIndices t1 t2 = none := by
  rw [Option.eq_none_iff_forall_ne_some]
  intro r found
  rw [findIndices_eq] at found
  obtain ⟨_, -, run⟩ := Option.bind_eq_some_iff.mp found
  obtain ⟨_, own⟩ := mapM_isSome_iff.mp ⟨r, run⟩ id member
  obtain ⟨index, ended, -⟩ := Option.bind_eq_some_iff.mp own
  exact thread_isSome_iff.mp ⟨index, ended⟩ overflows

/-- `find_indices` returns positions in the tensor. -/
theorem findIndices_lt {t1 t2 : List α} {r : List Nat} (found : findIndices t1 t2 = some r) :
    ∀ i ∈ r, i < t2.length := by
  intro i member
  rw [findIndices_eq] at found
  obtain ⟨_, -, run⟩ := Option.bind_eq_some_iff.mp found
  obtain ⟨k, position⟩ := List.getElem?_of_mem member
  obtain ⟨id, -, own⟩ := (mapM_some run).2 k i position
  obtain ⟨index, -, leads⟩ := Option.bind_eq_some_iff.mp own
  refine argsort_lt ?_
  unfold wrapIndex at leads
  split at leads
  · exact List.mem_of_getElem? leads
  · split at leads
    · exact List.mem_of_getElem? leads
    · cases leads

theorem indexed_iff {t1 t2 : List α} :
    Indexed t1 t2 ↔
      (∀ id ∈ t1, ¬ Overflows (sort t2) id ∧
        (id ∈ (sort t2).take (reach t2.length) ∨ (sort t2).getLast? = some id)) ∧
      ∀ id ∈ t2, ¬ Overflows t1 id := by
  have second : (∃ table2, ((sort t2).mapM fun id => findIndexAndSet t1 id (-1)) = some table2) ↔
      ∀ id ∈ t2, ¬ Overflows t1 id := by
    simp only [mapM_isSome_iff, mem_sort, findIndexAndSet, thread_isSome_iff]
  simp only [← indexed_one_iff]
  rw [← exists_mapM_forall₂_iff, ← second, Indexed, findIndices_eq]
  constructor
  · rintro ⟨r, run, entries⟩
    obtain ⟨table2, ended, first⟩ := Option.bind_eq_some_iff.mp run
    exact ⟨⟨r, first, entries⟩, table2, ended⟩
  · rintro ⟨⟨r, first, entries⟩, table2, ended⟩
    refine ⟨r, ?_, entries⟩
    rw [ended]
    exact first

/-! ## When the searches are right -/

theorem not_overflows_of_length (short : table.length ≤ 2 ^ 30) : ¬ Overflows table id := by
  rintro ⟨turns, isOpen, large, -⟩
  have bounded := reach_le table.length
  omega

/-- A search that stays in a table, and starts with all of it, is the one on natural
numbers. -/
theorem thread_of_whole (hit : Int → Int) (preset : Int)
    (whole : reach table.length = table.length) (inside : ¬ Overflows table id) :
    thread hit table id preset = some (((Graph.findIndexAndSet table id table.length 0
      table.length).map fun mid : Nat => hit mid).getD preset) := by
  have ended := outcome_eq inside
  rw [whole] at ended
  rw [thread, ended]
  cases Graph.findIndexAndSet table id table.length 0 table.length with
  | none => rfl
  | some mid => rfl

theorem thread_of_length (hit : Int → Int) (preset : Int) (short : table.length ≤ 2 ^ 30) :
    thread hit table id preset = some (((Graph.findIndexAndSet table id table.length 0
      table.length).map fun mid : Nat => hit mid).getD preset) :=
  thread_of_whole hit preset (reach_of_small (by omega)) (not_overflows_of_length short)

/-- An entry of an index table that was −1 at first. -/
def entry (index : Option Nat) : Int := (index.map fun mid : Nat => (mid : Int)).getD (-1)

/-- When the searches in both tables end, the second index table is that of the searches
on natural numbers. -/
theorem toFindSameIndexKernel_second {t1 t2 : List α} (whole : reach t1.length = t1.length)
    (first : ∀ id ∈ t1, ¬ Overflows t2 id) (second : ∀ id ∈ t2, ¬ Overflows t1 id) :
    ∃ table1, toFindSameIndexKernel t1 t2 (unset t1) (unset t2) =
      some (table1, (findSameIndex t2 t1).map entry) := by
  obtain ⟨table1, run1⟩ : ∃ table1,
      (t1.mapM fun id => findIndexAndSet t2 id (-1)) = some table1 :=
    mapM_isSome fun id member => thread_isSome_iff.mpr (first id member)
  have run2 : (t2.mapM fun id => findIndexAndSet t1 id (-1)) =
      some ((findSameIndex t2 t1).map entry) := by
    rw [findSameIndex, List.map_map]
    exact mapM_eq_map fun id member =>
      thread_of_whole (fun mid => mid) (-1) whole (second id member)
  refine ⟨table1, ?_⟩
  rw [toFindSameIndexKernel, launch_eq, run1, run2]
  rfl

/-- Tables of this length are searched as with natural numbers. -/
theorem toFindSameIndexKernel_eq {t1 t2 : List α} (short1 : t1.length ≤ 2 ^ 30)
    (short2 : t2.length ≤ 2 ^ 30) :
    toFindSameIndexKernel t1 t2 (unset t1) (unset t2) =
      some ((findSameIndex t1 t2).map entry, (findSameIndex t2 t1).map entry) := by
  have half : ∀ {t table : List α}, table.length ≤ 2 ^ 30 →
      (t.mapM fun id => findIndexAndSet table id (-1)) =
        some ((findSameIndex t table).map entry) := by
    intro t table short
    rw [findSameIndex, List.map_map]
    exact mapM_eq_map fun id _ => thread_of_length (fun mid => mid) (-1) short
  rw [toFindSameIndexKernel, launch_eq, half short2, half short1]
  rfl

/-- So is `find_indices`. -/
theorem findIndices_of_length {t1 t2 : List α} (short1 : t1.length ≤ 2 ^ 30)
    (short2 : t2.length ≤ 2 ^ 30) (contained : ∀ id ∈ t1, id ∈ t2) :
    findIndices t1 t2 = some (Graph.findIndices t1 t2) := by
  have sortedShort : (sort t2).length ≤ 2 ^ 30 := by rwa [sort_length]
  have second : ((sort t2).mapM fun id => findIndexAndSet t1 id (-1)) = some _ :=
    mapM_eq_map fun id _ => thread_of_length (fun mid => mid) (-1) short1
  rw [findIndices_eq, second, Option.bind_some, findIndices_eq_map]
  refine mapM_eq_map fun id member => ?_
  obtain ⟨mid, found, value⟩ :=
    findSameIndex_mem (sort_pairwise t2) (mem_sort.mpr (contained id member))
  have bound : mid < (argsort t2).length := by
    rw [argsort_length, ← sort_length]
    exact (List.getElem?_eq_some_iff.mp value).1
  rw [findIndexAndSet, thread_of_length _ _ sortedShort, found, Option.bind_some, Option.map_some,
    Option.getD_some, wrapIndex_natCast, position, found, Option.getD_some,
    List.getD_eq_getElem?_getD, List.getElem?_eq_getElem bound, Option.getD_some]
  rfl

/-- The searches of two sorted tables are right exactly if no sum of bounds has no `int`,
and each starts with the id's entries. With these conditions `find_indices` is right too. -/
theorem search_exact :
    (∀ t1 t2 : List α, t1.Pairwise (· ≤ ·) → t2.Pairwise (· ≤ ·) →
      (Matched t1 t2 ↔ (∀ id ∈ t1, Fits t2 id) ∧ ∀ id ∈ t2, Fits t1 id)) ∧
    ∀ t1 t2 : List α, t2.Nodup → (∀ id ∈ t1, id ∈ t2) →
      (Indexed t1 t2 ↔
        (∀ id ∈ t1, ¬ Overflows (sort t2) id ∧
          (id ∈ (sort t2).take (reach t2.length) ∨ (sort t2).getLast? = some id)) ∧
        ∀ id ∈ t2, ¬ Overflows t1 id) :=
  ⟨fun _ _ => matched_iff, fun _ _ _ _ => indexed_iff⟩

/-- Tables with repeated ids, and a tensor that is not sorted. -/
theorem search_exact_four : Matched [1, 2, 4] [2, 2, 3, 4] ∧ Indexed [7, 5, 5] [5, 9, 7] := by
  refine ⟨(search_exact.1 [1, 2, 4] [2, 2, 3, 4] (by decide) (by decide)).mpr ⟨?_, ?_⟩,
    (search_exact.2 [7, 5, 5] [5, 9, 7] (by decide) (by decide)).mpr ⟨?_, ?_⟩⟩
  · exact fun id _ => ⟨not_overflows_of_length (by decide), by
      rw [reach_of_small (by decide), List.take_length]
      exact fun occurs => occurs⟩
  · exact fun id _ => ⟨not_overflows_of_length (by decide), by
      rw [reach_of_small (by decide), List.take_length]
      exact fun occurs => occurs⟩
  · refine fun id member => ⟨not_overflows_of_length (by decide), Or.inl ?_⟩
    rw [reach_of_small (by decide), ← sort_length, List.take_length, mem_sort]
    revert id
    decide
  · exact fun id _ => not_overflows_of_length (by decide)

/-- The search for an id above the middle of a long table has a sum that has no `int`. -/
theorem overflows_of_long (long : 3 * 2 ^ 29 ≤ table.length) (int : table.length ≤ 2 ^ 31)
    (below : table.getD ((table.length - 1) / 2) default < id) : Overflows table id := by
  have whole : reach table.length = table.length := reach_of_small int
  have first : rightmost table.length 1 = (table.length - 1) / 2 + 1 := by
    rw [rightmost_succ, rightmost, Nat.zero_add]
  refine ⟨1, ?_, ?_, ?_⟩
  · rw [whole, first]
    omega
  · rw [whole, first]
    omega
  · intro turn early
    obtain rfl : turn = 0 := by omega
    rwa [whole, first, Nat.add_sub_cancel]

/-- The last of many ids is searched for so. -/
theorem overflows_range {count : Nat} (long : 3 * 2 ^ 29 ≤ count) (int : count ≤ 2 ^ 31) :
    Overflows (List.range count) (count - 1) := by
  have inside : (count - 1) / 2 < count := by omega
  apply overflows_of_long
  · rwa [List.length_range]
  · rwa [List.length_range]
  · rw [List.length_range, List.getD_eq_getElem?_getD, List.getElem?_range inside, Option.getD_some]
    omega

/-- It is neither matched nor indexed. -/
theorem not_matched_range {count : Nat} (long : 3 * 2 ^ 29 ≤ count) (int : count ≤ 2 ^ 31) :
    ¬ Matched [count - 1] (List.range count) ∧ ¬ Indexed [count - 1] (List.range count) := by
  have overflows := overflows_range long int
  have sorted : sort (List.range count) = List.range count :=
    IdSet.sort_ids ⟨List.range count, List.pairwise_lt_range⟩
  constructor
  · intro matched
    have fits := (matched_iff (List.pairwise_singleton _ _) List.pairwise_le_range).mp matched
    exact (fits.1 _ (List.mem_singleton_self _)).1 overflows
  · intro indexed
    have fits := (indexed_iff.mp indexed).1 _ (List.mem_singleton_self _)
    rw [sorted] at fits
    exact fits.1 overflows

/-- The ids from 0 to 3·2²⁹ − 1, of which the last is searched for. -/
theorem search_exact_not_range :
    ¬ Matched [3 * 2 ^ 29 - 1] (List.range (3 * 2 ^ 29)) ∧
      ¬ Indexed [3 * 2 ^ 29 - 1] (List.range (3 * 2 ^ 29)) :=
  not_matched_range (by omega) (by omega)

end Dolphin.Graph.SearchKernel
