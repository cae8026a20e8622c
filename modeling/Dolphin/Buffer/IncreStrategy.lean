import Dolphin.Graph.SearchExact

/-!
# The slot map of the incremental strategy

`incre_strategy` keeps a map from slots to ids. Ids that have left are blanked with −1, new
ids take the blank slots from the front, and the map grows when there are too few of them.
`gen_part_incre` feeds it the sets of ids of one batch after the other, starting from a map
whose one entry is no id.
-/

namespace Dolphin.Buffer

open Dolphin.Tensor Dolphin.Graph.SearchKernel

/-! ## The strategy -/

/-- `pre_map` after the ids at `increMapIndex` have left and `increNid` have come, with the
slots that these got. -/
def replaceIds (preMap : List Int) (increMapIndex : List Nat) (increNid : List Int) :
    List Int × List Nat × List Int :=
  let preMap := indexFill preMap increMapIndex (-1)
  let indicesAble := nonzero (preMap.map (· == -1))
  let lenAble := indicesAble.length
  let grown :=
    if lenAble < increNid.length then
      preMap ++ List.replicate (increNid.length - lenAble) (-1)
    else preMap
  let indicesAble :=
    if lenAble < increNid.length then nonzero (grown.map (· == -1)) else indicesAble
  let increIndices := indicesAble.take increNid.length
  (indexAssign grown increIndices increNid, increIndices, increNid)

/-- `incre_strategy(pre_map, cur_id)`; `none` where a search reads outside of its table. -/
def increStrategy (preMap curId : List Int) : Option (List Int × List Nat × List Int) := do
  let preMapSort := sort preMap
  let curIdSort := sort curId
  let (table1, table2) ←
    toFindSameIndexKernel preMapSort curIdSort (unset preMapSort) (unset curIdSort)
  let increMapIndex := maskSelect (table1.map (· == -1)) (argsort preMap)
  let increNid := gather curId (maskSelect (table2.map (· == -1)) (argsort curId))
  some (replaceIds preMap increMapIndex increNid)

/-- The entry of the first map, `2**31 - 1`. -/
def sentinel : Int := 2 ^ 31 - 1

/-- The ids of one batch, as they are fed to `incre_strategy`. -/
structure BatchIds where
  ids : List Int
  increasing : ids.Pairwise (· < ·)
  occupied : ids ≠ []
  inRange : ∀ id ∈ ids, 0 ≤ id ∧ id < sentinel

/-! ## What a step is to do -/

section

variable {φ : Type}

/-- Every slot with an id has the feature of the id. -/
def HoldsFeatures (feature : Int → φ) (map : List Int) (buffer : List φ) : Prop :=
  ∀ (slot : Nat) (id : Int), map[slot]? = some id → 0 ≤ id → id < sentinel →
    buffer[slot]? = some (feature id)

/-- The buffer gets room for the map, and the features of the new ids. -/
def applyIncre [Inhabited φ] (feature : Int → φ) (map : List Int) (increIndices : List Nat)
    (increNid : List Int) (buffer : List φ) : List φ :=
  indexAssign (buffer ++ List.replicate (map.length - buffer.length) default) increIndices
    (increNid.map feature)

/-- The entries other than −1 are the current ids, each once; an id that stays keeps its
slot; and the new ids are reported with their slots. -/
structure Replaces (preMap cur map : List Int) (increIndices : List Nat) (increNid : List Int) :
    Prop where
  entries : (map.filter (· ≠ -1)).Perm cur
  kept : ∀ (slot : Nat) (id : Int), preMap[slot]? = some id → id ∈ cur → map[slot]? = some id
  arrived : increNid.Perm (cur.filter (· ∉ preMap))
  paired : List.Forall₂ (fun slot id => map[slot]? = some id) increIndices increNid

/-- Every step of a run does so, and the incremental features keep the buffer right. -/
def Tracks [Inhabited φ] (feature : Int → φ) : List Int → List φ → List BatchIds → Prop
  | _, _, [] => True
  | preMap, buffer, cur :: rest =>
      ∃ map increIndices increNid,
        increStrategy preMap cur.ids = some (map, increIndices, increNid) ∧
        Replaces preMap cur.ids map increIndices increNid ∧
        HoldsFeatures feature map (applyIncre feature map increIndices increNid buffer) ∧
        Tracks feature map (applyIncre feature map increIndices increNid buffer) rest

end

/-- The searches of a step stay in their tables. -/
def Searchable (preMap cur : List Int) : Prop :=
  (∀ id ∈ preMap, ¬ Overflows cur id) ∧ ∀ id ∈ cur, ¬ Overflows (sort preMap) id

/-- The searches of every step of a run do. -/
def SearchableRun : List Int → List BatchIds → Prop
  | _, [] => True
  | preMap, cur :: rest =>
      Searchable preMap cur.ids ∧ ∀ map increIndices increNid,
        increStrategy preMap cur.ids = some (map, increIndices, increNid) → SearchableRun map rest

/-! ## Blanking and filling -/

/-- The map with blanks for all new ids, and the slots that they take. -/
def grownMap (blanked new : List Int) : List Int :=
  blanked ++ List.replicate (new.length - (nonzero (blanked.map (· == -1))).length) (-1)

def takenSlots (blanked new : List Int) : List Nat :=
  (nonzero ((grownMap blanked new).map (· == -1))).take new.length

/-- The map is grown only where there are too few blanks. -/
theorem replaceIds_eq (preMap : List Int) (increMapIndex : List Nat) (new : List Int) :
    replaceIds preMap increMapIndex new =
      (indexAssign (grownMap (indexFill preMap increMapIndex (-1)) new)
          (takenSlots (indexFill preMap increMapIndex (-1)) new) new,
        takenSlots (indexFill preMap increMapIndex (-1)) new, new) := by
  simp only [replaceIds, takenSlots, grownMap]
  split
  · rfl
  · next enough =>
      rw [Nat.sub_eq_zero_of_le (Nat.le_of_not_lt enough), List.replicate_zero, List.append_nil]

section Filling

variable {blanked new : List Int}

theorem takenSlots_nodup : (takenSlots blanked new).Nodup :=
  ((nonzero_pairwise _).imp Nat.ne_of_lt).sublist (List.take_sublist _ _)

/-- A slot that is taken was blank. -/
theorem grownMap_taken {slot : Nat} (taken : slot ∈ takenSlots blanked new) :
    (grownMap blanked new)[slot]? = some (-1) := by
  have blank := mem_nonzero.mp (List.mem_of_mem_take taken)
  rw [List.getElem?_map] at blank
  obtain ⟨entry, at_, isBlank⟩ := Option.map_eq_some_iff.mp blank
  rw [at_, beq_iff_eq.mp isBlank]

/-- There is a blank for every new id. -/
theorem takenSlots_length : (takenSlots blanked new).length = new.length := by
  have blanks : (nonzero ((grownMap blanked new).map (· == -1))).length =
      (nonzero (blanked.map (· == -1))).length +
        (new.length - (nonzero (blanked.map (· == -1))).length) := by
    have added : ∀ count, ((List.replicate count (-1 : Int)).filter (· == -1)).length = count := by
      intro count
      rw [List.filter_replicate_of_pos (by decide), List.length_replicate]
    rw [nonzero_map_length, grownMap, List.filter_append, List.length_append, added,
      nonzero_map_length]
  rw [takenSlots, List.length_take, blanks]
  omega

/-- An id that is in the map already keeps its slot. -/
theorem grownMap_kept {slot : Nat} {id : Int} (at_ : blanked[slot]? = some id)
    (occupied : id ≠ -1) :
    (indexAssign (grownMap blanked new) (takenSlots blanked new) new)[slot]? = some id := by
  have bound : slot < blanked.length := (List.getElem?_eq_some_iff.mp at_).1
  have grown : (grownMap blanked new)[slot]? = some id := by
    rw [grownMap, List.getElem?_append_left bound, at_]
  have untouched : slot ∉ takenSlots blanked new := by
    intro taken
    rw [grownMap_taken taken] at grown
    exact occupied (Option.some.inj grown).symm
  rw [indexAssign_other untouched, grown]

/-- An id in a slot that is not taken was there before. -/
theorem blanked_of_untaken {slot : Nat} {id : Int} (untaken : slot ∉ takenSlots blanked new)
    (at_ : (indexAssign (grownMap blanked new) (takenSlots blanked new) new)[slot]? = some id)
    (occupied : id ≠ -1) : blanked[slot]? = some id := by
  rw [indexAssign_other untaken, grownMap] at at_
  by_cases early : slot < blanked.length
  · rwa [List.getElem?_append_left early] at at_
  · rw [List.getElem?_append_right (Nat.le_of_not_lt early)] at at_
    exact absurd (List.mem_replicate.mp (List.mem_of_getElem? at_)).2 occupied

/-- The new ids are in the slots that they took. -/
theorem taken_spec {k slot : Nat} (index : (takenSlots blanked new)[k]? = some slot) :
    ∃ id, new[k]? = some id ∧
      (indexAssign (grownMap blanked new) (takenSlots blanked new) new)[slot]? = some id := by
  have inside : k < new.length :=
    takenSlots_length ▸ (List.getElem?_eq_some_iff.mp index).1
  have value : new[k]? = some new[k] := List.getElem?_eq_getElem inside
  have bound := (List.getElem?_eq_some_iff.mp (grownMap_taken (List.mem_of_getElem? index))).1
  exact ⟨new[k], value, indexAssign_own takenSlots_nodup index value bound⟩

theorem taken_paired : List.Forall₂ (fun slot id =>
    (indexAssign (grownMap blanked new) (takenSlots blanked new) new)[slot]? = some id)
    (takenSlots blanked new) new := by
  refine List.forall₂_iff_get.mpr ⟨takenSlots_length, fun k first second => ?_⟩
  obtain ⟨id, value, at_⟩ := taken_spec (List.getElem?_eq_getElem first)
  rw [List.getElem?_eq_getElem second] at value
  rw [List.get_eq_getElem, List.get_eq_getElem, at_, ← value]

/-- The entries are those that were left and the new ids. -/
theorem filled_entries (ids : -1 ∉ new) :
    ((indexAssign (grownMap blanked new) (takenSlots blanked new) new).filter (· ≠ -1)).Perm
      (blanked.filter (· ≠ -1) ++ new) := by
  have left : (grownMap blanked new).filter (· ≠ -1) = blanked.filter (· ≠ -1) := by
    rw [grownMap, List.filter_append, List.filter_replicate_of_neg (by decide), List.append_nil]
  rw [← left]
  refine indexAssign_filter_perm takenSlots_nodup takenSlots_length.symm ?_ ?_
  · exact fun slot taken => ⟨-1, grownMap_taken taken, by decide⟩
  · intro id member
    exact decide_eq_true fun blank => ids (blank ▸ member)

/-- The map is as long as before, or it has no blank left. -/
theorem filled_length :
    (indexAssign (grownMap blanked new) (takenSlots blanked new) new).length =
      max blanked.length ((blanked.filter (· ≠ -1)).length + new.length) := by
  have whole : blanked.length =
      (blanked.filter (· == -1)).length + (blanked.filter (· ≠ -1)).length := by
    have split := List.length_eq_length_filter_add (fun id : Int => id == -1) (l := blanked)
    have others : (blanked.filter fun id => !(id == -1)) = blanked.filter (· ≠ -1) :=
      List.filter_congr fun id _ => (decide_not (p := id = -1)).symm
    rwa [others] at split
  rw [indexAssign_length, grownMap, List.length_append, List.length_replicate,
    nonzero_map_length]
  omega

end Filling

/-! ## The searches of a step -/

theorem BatchIds.nodup (cur : BatchIds) : cur.ids.Nodup := cur.increasing.imp fun less => ne_of_lt less

theorem BatchIds.sort_ids (cur : BatchIds) : sort cur.ids = cur.ids :=
  (sort_perm cur.ids).eq_of_pairwise' (sort_pairwise cur.ids) (cur.increasing.imp le_of_lt)

theorem BatchIds.occupied_slot (cur : BatchIds) : -1 ∉ cur.ids := by
  intro member
  exact absurd (cur.inRange _ member).1 (by decide)

/-- There are fewer ids than the sentinel. -/
theorem BatchIds.length_lt (cur : BatchIds) : cur.ids.length < 2 ^ 31 := by
  have bounded : ∀ count : Nat, (∀ id ∈ cur.ids, 0 ≤ id ∧ id < count) → cur.ids.length ≤ count := by
    intro count early
    have distinct : (cur.ids.map Int.toNat).Nodup := by
      refine List.Nodup.map_on (fun first firstIn second secondIn same => ?_) cur.nodup
      have positive := (early first firstIn).1
      have positive' := (early second secondIn).1
      omega
    have inside : cur.ids.map Int.toNat ⊆ List.range count := by
      intro x member
      obtain ⟨id, idIn, rfl⟩ := List.mem_map.mp member
      have both := early id idIn
      exact List.mem_range.mpr (by omega)
    have lengths := distinct.length_le_of_subset inside
    rwa [List.length_map, List.length_range] at lengths
  have all := bounded (2 ^ 31 - 1) fun id member => by
    have both := cur.inRange id member
    rw [sentinel] at both
    omega
  omega

/-- The entries of an index table that are still −1 are those of the missing ids. -/
theorem unset_of_locates {table t : List Int} {index : List Int}
    (located : List.Forall₂ (Locates table) t index) :
    index.map (· == -1) = t.map fun id => decide (id ∉ table) := by
  induction located with
  | nil => rfl
  | cons own _ ih =>
      rw [List.map_cons, List.map_cons, ih]
      rcases own with ⟨j, rfl, at_⟩ | ⟨rfl, missing⟩
      · rw [decide_eq_false (not_not.mpr (List.mem_of_getElem? at_)), beq_eq_false_iff_ne.mpr (by omega)]
      · rw [decide_eq_true missing]
        rfl

/-- What a map is to hold, and how long it may be. -/
structure MapOf (map ids : List Int) : Prop where
  entries : (map.filter (· ≠ -1)).Perm ids
  nodup : ids.Nodup
  length : map.length ≤ 2 ^ 31

theorem fits_of_length {table : List Int} {id : Int} (length : table.length ≤ 2 ^ 31)
    (inside : ¬ Overflows table id) : Fits table id := by
  refine ⟨inside, fun occurs => ?_⟩
  rwa [reach_of_small length, List.take_length]

/-- The slots of the ids that leave. -/
def leaving (preMap cur : List Int) : List Nat :=
  (argsort preMap).filter fun slot => decide (preMap.getD slot default ∉ cur)

/-- With its searches in the tables, a step blanks the ids that leave and adds those that
come. -/
theorem increStrategy_eq {preMap : List Int} {cur : BatchIds} (length : preMap.length ≤ 2 ^ 31)
    (searchable : Searchable preMap cur.ids) :
    increStrategy preMap cur.ids =
      some (replaceIds preMap (leaving preMap cur.ids) (cur.ids.filter (· ∉ preMap))) := by
  have fits : (∀ id ∈ sort preMap, Fits (sort cur.ids) id) ∧
      ∀ id ∈ sort cur.ids, Fits (sort preMap) id := by
    constructor
    · intro id member
      rw [cur.sort_ids]
      exact fits_of_length (Nat.le_of_lt cur.length_lt) (searchable.1 id (mem_sort.mp member))
    · intro id member
      refine fits_of_length (by rwa [sort_length]) (searchable.2 id (mem_sort.mp member))
  obtain ⟨⟨⟨table1, table2⟩, ended, first, second⟩, -⟩ :=
    (matched_iff (sort_pairwise preMap) (sort_pairwise cur.ids)).mpr fits
  have gone : maskSelect (table1.map (· == -1)) (argsort preMap) = leaving preMap cur.ids := by
    rw [unset_of_locates first]
    simp only [mem_sort]
    rw [leaving, ← maskSelect_map_self, sort, gather, List.map_map]
    rfl
  have new : gather cur.ids (maskSelect (table2.map (· == -1)) (argsort cur.ids)) =
      cur.ids.filter (· ∉ preMap) := by
    rw [unset_of_locates second, gather, map_maskSelect]
    simp only [mem_sort]
    have sorted : (argsort cur.ids).map (fun i => cur.ids.getD i default) = cur.ids :=
      cur.sort_ids
    rw [sorted, cur.sort_ids, maskSelect_map_self]
  rw [increStrategy]
  simp only [ended, Option.bind_eq_bind, Option.bind_some, gone, new]

/-- A step that ends has searched inside of its tables. -/
theorem searchable_of_increStrategy {preMap : List Int} {cur : BatchIds}
    {result : List Int × List Nat × List Int}
    (ended : increStrategy preMap cur.ids = some result) : Searchable preMap cur.ids := by
  obtain ⟨tables, run, -⟩ := Option.bind_eq_some_iff.mp ended
  obtain ⟨first, second⟩ := not_overflows_of_kernel run
  rw [cur.sort_ids] at first second
  exact ⟨fun id member => first id (mem_sort.mpr member), second⟩

/-! ## One step -/

section Step

variable {preMap pre : List Int} {cur : BatchIds}

theorem mem_leaving {slot : Nat} :
    slot ∈ leaving preMap cur.ids ↔ ∃ id, preMap[slot]? = some id ∧ id ∉ cur.ids := by
  rw [leaving, List.mem_filter, (argsort_perm preMap).mem_iff, List.mem_range, decide_eq_true_iff,
    List.getD_eq_getElem?_getD]
  constructor
  · rintro ⟨inside, gone⟩
    rw [List.getElem?_eq_getElem inside, Option.getD_some] at gone
    exact ⟨_, List.getElem?_eq_getElem inside, gone⟩
  · rintro ⟨id, at_, gone⟩
    rw [at_, Option.getD_some]
    exact ⟨(List.getElem?_eq_some_iff.mp at_).1, gone⟩

/-- What is not a current id is blank. -/
theorem blanked_eq :
    indexFill preMap (leaving preMap cur.ids) (-1) =
      preMap.map fun id => if id ∈ cur.ids then id else -1 := by
  apply List.ext_getElem?
  intro slot
  have inside : ∀ slot ∈ leaving preMap cur.ids, slot < preMap.length := by
    intro slot member
    obtain ⟨id, at_, -⟩ := mem_leaving.mp member
    exact (List.getElem?_eq_some_iff.mp at_).1
  rw [indexFill, getElem?_indexAssign_map inside, List.getElem?_map]
  cases at_ : preMap[slot]? with
  | none =>
      have outside : slot ∉ leaving preMap cur.ids := by
        intro member
        obtain ⟨id, found, -⟩ := mem_leaving.mp member
        rw [at_] at found
        cases found
      rw [if_neg outside]
      rfl
  | some id =>
      by_cases stays : id ∈ cur.ids
      · have kept : slot ∉ leaving preMap cur.ids := by
          intro member
          obtain ⟨other, found, gone⟩ := mem_leaving.mp member
          obtain rfl : id = other := Option.some.inj (at_.symm.trans found)
          exact gone stays
        rw [if_neg kept, Option.map_some, if_pos stays]
      · rw [if_pos (mem_leaving.mpr ⟨id, at_, stays⟩), Option.map_some, if_neg stays]

/-- The ids that stay. -/
theorem blanked_ids :
    (preMap.map fun id => if id ∈ cur.ids then id else -1).filter (· ≠ -1) =
      preMap.filter (· ∈ cur.ids) := by
  induction preMap with
  | nil => rfl
  | cons id preMap ih =>
      rw [List.map_cons]
      by_cases stays : id ∈ cur.ids
      · have occupied : id ≠ -1 := fun blank => cur.occupied_slot (blank ▸ stays)
        rw [if_pos stays, List.filter_cons_of_pos (by simpa using occupied),
          List.filter_cons_of_pos (by simpa using stays), ih]
      · rw [if_neg stays, List.filter_cons_of_neg (by decide),
          List.filter_cons_of_neg (by simpa using stays), ih]

/-- The ids that stay and those that come are the current ones. -/
theorem staying_perm (holds : MapOf preMap pre) :
    (preMap.filter (· ∈ cur.ids) ++ cur.ids.filter (· ∉ preMap)).Perm cur.ids := by
  have stay : preMap.filter (· ∈ cur.ids) = (preMap.filter (· ≠ -1)).filter (· ∈ cur.ids) := by
    rw [List.filter_filter]
    refine List.filter_congr fun id _ => ?_
    by_cases stays : id ∈ cur.ids
    · have occupied : id ≠ -1 := fun blank => cur.occupied_slot (blank ▸ stays)
      rw [decide_eq_true stays, decide_eq_true occupied]
      rfl
    · rw [decide_eq_false stays]
      rfl
  have distinct : (preMap.filter (· ∈ cur.ids)).Nodup := by
    rw [stay]
    exact (holds.entries.nodup_iff.mpr holds.nodup).filter _
  have same : (preMap.filter (· ∈ cur.ids)).Perm (cur.ids.filter (· ∈ preMap)) := by
    refine (List.perm_ext_iff_of_nodup distinct (cur.nodup.filter _)).mpr fun id => ?_
    simp only [List.mem_filter, decide_eq_true_eq]
    exact and_comm
  refine (same.append_right _).trans ?_
  have split := List.filter_append_perm (fun id => decide (id ∈ preMap)) cur.ids
  simpa using split

/-- A step whose searches stay in their tables replaces the ids, in a map that is no longer
than the old one or the current ids. -/
theorem increStrategy_replaces (holds : MapOf preMap pre) (searchable : Searchable preMap cur.ids) :
    ∃ map increIndices increNid,
      increStrategy preMap cur.ids = some (map, increIndices, increNid) ∧
      Replaces preMap cur.ids map increIndices increNid ∧
      map.length = max preMap.length cur.ids.length ∧
      increIndices.Nodup ∧
      ∀ (slot : Nat) (id : Int), map[slot]? = some id → id ≠ -1 → slot ∉ increIndices →
        preMap[slot]? = some id := by
  let blanked := preMap.map fun id => if id ∈ cur.ids then id else -1
  let new := cur.ids.filter (· ∉ preMap)
  have noBlank : -1 ∉ new := fun member => cur.occupied_slot (List.mem_filter.mp member).1
  have perm : (preMap.filter (· ∈ cur.ids) ++ new).Perm cur.ids := staying_perm holds
  refine ⟨indexAssign (grownMap blanked new) (takenSlots blanked new) new,
    takenSlots blanked new, new, ?_, ⟨?_, ?_, .refl _, taken_paired⟩, ?_, takenSlots_nodup, ?_⟩
  · rw [increStrategy_eq holds.length searchable, replaceIds_eq, blanked_eq]
  · refine (filled_entries noBlank).trans ?_
    rw [blanked_ids]
    exact perm
  · intro slot id at_ stays
    refine grownMap_kept ?_ fun blank => cur.occupied_slot (blank ▸ stays)
    rw [List.getElem?_map, at_, Option.map_some, if_pos stays]
  · rw [filled_length, blanked_ids, List.length_map, ← List.length_append, perm.length_eq]
  · intro slot id at_ occupied untaken
    have before := blanked_of_untaken untaken at_ occupied
    rw [List.getElem?_map] at before
    obtain ⟨old, found, same⟩ := Option.map_eq_some_iff.mp before
    by_cases stays : old ∈ cur.ids
    · rw [if_pos stays] at same
      rw [found, same]
    · rw [if_neg stays] at same
      exact absurd same.symm occupied

example : increStrategy [9, 4, -1] [1, 2, 3, 4, 7] =
    some ([1, 4, 2, 3, 7], [0, 2, 3, 4], [1, 2, 3, 7]) := by decide

/-- The next map holds the current ids. -/
theorem MapOf.step {map : List Int} {increIndices : List Nat} {increNid : List Int}
    (holds : MapOf preMap pre) (replaces : Replaces preMap cur.ids map increIndices increNid)
    (length : map.length = max preMap.length cur.ids.length) : MapOf map cur.ids where
  entries := replaces.entries
  nodup := cur.nodup
  length := by
    have short := cur.length_lt
    have before := holds.length
    omega

end Step

/-! ## Features -/

section Features

variable {φ : Type} [Inhabited φ] {feature : Int → φ} {preMap map : List Int}
  {increIndices : List Nat} {increNid : List Int} {buffer : List φ}

/-- The incremental features and those that were there are all that is needed. -/
theorem HoldsFeatures.applyIncre (holds : HoldsFeatures feature preMap buffer)
    (paired : List.Forall₂ (fun slot id => map[slot]? = some id) increIndices increNid)
    (distinct : increIndices.Nodup)
    (before : ∀ (slot : Nat) (id : Int), map[slot]? = some id → id ≠ -1 → slot ∉ increIndices →
      preMap[slot]? = some id) :
    HoldsFeatures feature map (applyIncre feature map increIndices increNid buffer) := by
  intro slot id at_ positive small
  have bound : slot < map.length := (List.getElem?_eq_some_iff.mp at_).1
  by_cases taken : slot ∈ increIndices
  · obtain ⟨k, index⟩ := List.getElem?_of_mem taken
    have inside := (List.getElem?_eq_some_iff.mp index).1
    have room : k < increNid.length := paired.length_eq ▸ inside
    have own := (List.forall₂_iff_get.mp paired).2 k inside room
    rw [List.get_eq_getElem, List.get_eq_getElem,
      (List.getElem?_eq_some_iff.mp index).2, at_] at own
    have value : (increNid.map feature)[k]? = some (feature id) := by
      rw [List.getElem?_map, List.getElem?_eq_getElem room, Option.some.inj own]
      rfl
    refine indexAssign_own distinct index value ?_
    rw [List.length_append, List.length_replicate]
    omega
  · have row := holds slot id (before slot id at_ (by omega) taken) positive small
    rw [Dolphin.Buffer.applyIncre, indexAssign_other taken,
      List.getElem?_append_left (List.getElem?_eq_some_iff.mp row).1, row]

end Features

/-! ## Runs -/

/-- The first map has no id. -/
theorem mapOf_sentinel : MapOf [sentinel] [sentinel] where
  entries := .refl _
  nodup := List.nodup_singleton _
  length := by decide

theorem holdsFeatures_sentinel {φ : Type} (feature : Int → φ) (buffer : List φ) :
    HoldsFeatures feature [sentinel] buffer := by
  intro slot id at_ _ small
  obtain rfl := List.mem_singleton.mp (List.mem_of_getElem? at_)
  exact absurd small (lt_irrefl _)

theorem tracks_iff_of_mapOf {φ : Type} [Inhabited φ] {feature : Int → φ} {preMap pre : List Int}
    {buffer : List φ} {sets : List BatchIds} (holds : MapOf preMap pre)
    (features : HoldsFeatures feature preMap buffer) :
    Tracks feature preMap buffer sets ↔ SearchableRun preMap sets := by
  induction sets generalizing preMap pre buffer with
  | nil => exact iff_of_true trivial trivial
  | cons cur rest ih =>
      rw [Tracks, SearchableRun]
      constructor
      · rintro ⟨map, increIndices, increNid, ended, replaces, kept, tracks⟩
        have searchable := searchable_of_increStrategy ended
        refine ⟨searchable, ?_⟩
        obtain ⟨map', increIndices', increNid', again, -, length, -⟩ :=
          increStrategy_replaces holds searchable
        intro map'' increIndices'' increNid'' third
        cases ended.symm.trans again
        cases ended.symm.trans third
        exact (ih (holds.step replaces length) kept).mp tracks
      · rintro ⟨searchable, later⟩
        obtain ⟨map, increIndices, increNid, ended, replaces, length, distinct, before⟩ :=
          increStrategy_replaces holds searchable
        have kept := features.applyIncre replaces.paired distinct before
        exact ⟨map, increIndices, increNid, ended, replaces, kept,
          (ih (holds.step replaces length) kept).mpr (later _ _ _ ended)⟩

/-- From the first map on, every step keeps the map and the features exactly if no search
of the run leaves its table. -/
theorem tracks_iff {φ : Type} [Inhabited φ] (feature : Int → φ) (buffer : List φ)
    (sets : List BatchIds) :
    Tracks feature [sentinel] buffer sets ↔ SearchableRun [sentinel] sets :=
  tracks_iff_of_mapOf mapOf_sentinel (holdsFeatures_sentinel feature buffer)

/-- Sets of at most 2³⁰ ids are always searched inside. -/
theorem searchableRun_of_length {preMap pre : List Int} {sets : List BatchIds}
    (holds : MapOf preMap pre) (short : preMap.length ≤ 2 ^ 30)
    (lengths : ∀ cur ∈ sets, cur.ids.length ≤ 2 ^ 30) : SearchableRun preMap sets := by
  induction sets generalizing preMap pre with
  | nil => trivial
  | cons cur rest ih =>
      obtain ⟨own, others⟩ := List.forall_mem_cons.mp lengths
      have searchable : Searchable preMap cur.ids :=
        ⟨fun _ _ => not_overflows_of_length own,
          fun _ _ => not_overflows_of_length (by rwa [sort_length])⟩
      refine ⟨searchable, fun map increIndices increNid ended => ?_⟩
      obtain ⟨map', increIndices', increNid', again, replaces, length, -⟩ :=
        increStrategy_replaces holds searchable
      cases ended.symm.trans again
      exact ih (holds.step replaces length) (by omega) others

/-- The ids from 0 on. -/
def BatchIds.upTo (count : Nat) (positive : 0 < count) (small : (count : Int) ≤ sentinel) :
    BatchIds where
  ids := (List.range count).map fun i : Nat => (i : Int)
  increasing := List.pairwise_lt_range.map _ fun _ _ less => Int.ofNat_lt.mpr less
  occupied := by
    rw [Ne, List.map_eq_nil_iff, List.range_eq_nil]
    omega
  inRange id member := by
    obtain ⟨i, inside, rfl⟩ := List.mem_map.mp member
    have early := List.mem_range.mp inside
    omega

/-- The entry of the first map is searched for outside of a long table. -/
theorem tracks_not_upTo {count : Nat} (positive : 0 < count) (small : (count : Int) ≤ sentinel)
    (long : 3 * 2 ^ 29 ≤ count) :
    ¬ Tracks (fun id => id) [sentinel] [] [BatchIds.upTo count positive small] := by
  intro tracks
  have searchable :=
    (tracks_iff_of_mapOf mapOf_sentinel (holdsFeatures_sentinel _ [])).mp tracks
  have length : (BatchIds.upTo count positive small).ids.length = count := by
    rw [BatchIds.upTo, List.length_map, List.length_range]
  have middle : (count - 1) / 2 < count := by omega
  refine searchable.1.1 sentinel (List.mem_singleton_self _) ?_
  apply overflows_of_long
  · rwa [length]
  · rw [length]
    rw [sentinel] at small
    omega
  · rw [length, BatchIds.upTo, List.getD_eq_getElem?_getD, List.getElem?_map,
      List.getElem?_range middle, Option.map_some, Option.getD_some]
    omega

/-- The first set has the ids from 0 to 3·2²⁹ − 1. -/
theorem tracks_not : ¬ Tracks (fun id => id) [sentinel] []
    [BatchIds.upTo (3 * 2 ^ 29) (by decide) (by decide)] :=
  tracks_not_upTo _ _ (by omega)

end Dolphin.Buffer
