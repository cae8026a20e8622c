import Mathlib.Data.List.Basic
import Mathlib.Data.List.Nodup
import Mathlib.Logic.Function.Basic

/-!
# Tables and columns

A table has a row for every key. `writeAll` overwrites the rows of some keys,
`editAll` changes them one after the other. A column holds the rows of some keys
in the order of the keys; an edit at a key's position in the column is the edit
of the table.
-/

namespace Dolphin.Semantics

variable {κ β : Type*} [DecidableEq κ]

/-- The rows written to some keys, in order. -/
def writeAll (table : κ → β) (keys : List κ) (values : List β) : κ → β :=
  (keys.zip values).foldl (fun table write => Function.update table write.1 write.2) table

/-- The rows of some keys changed, in order. -/
def editAll (table : κ → β) (edits : List (κ × (β → β))) : κ → β :=
  edits.foldl (fun table edit => Function.update table edit.1 (edit.2 (table edit.1))) table

/-- The rows of a column changed at the positions of their keys, in order. -/
def editColumn (position : κ → Nat) (column : List β) (edits : List (κ × (β → β))) : List β :=
  edits.foldl (fun column edit => column.modify (position edit.1) edit.2) column

/-! ## Writes -/

theorem writeAll_other {keys : List κ} {k : κ} (other : k ∉ keys) (table : κ → β)
    (values : List β) : writeAll table keys values k = table k := by
  unfold writeAll
  induction keys generalizing table values with
  | nil => rfl
  | cons first keys ih =>
      obtain ⟨notFirst, notLater⟩ : k ≠ first ∧ k ∉ keys := by simpa using other
      cases values with
      | nil => rfl
      | cons value values =>
          rw [List.zip_cons_cons, List.foldl_cons, ih notLater,
            Function.update_of_ne notFirst]

/-- Distinct keys have the values written to them. -/
theorem map_writeAll {keys : List κ} (distinct : keys.Nodup) (table : κ → β)
    {values : List β} (aligned : values.length = keys.length) :
    keys.map (writeAll table keys values) = values := by
  induction keys generalizing table values with
  | nil => exact (List.eq_nil_of_length_eq_zero aligned).symm
  | cons k keys ih =>
      obtain ⟨fresh, distinct⟩ := List.nodup_cons.mp distinct
      cases values with
      | nil => simp at aligned
      | cons value values =>
          have later : writeAll table (k :: keys) (value :: values) =
              writeAll (Function.update table k value) keys values := rfl
          rw [List.map_cons, later, writeAll_other fresh, Function.update_self,
            ih distinct _ (by simpa using aligned)]

/-- Keys that are written with the rows of another table have its rows. -/
theorem writeAll_map (table other : κ → β) (keys : List κ) (k : κ) :
    writeAll table keys (keys.map other) k = if k ∈ keys then other k else table k := by
  unfold writeAll
  induction keys generalizing table with
  | nil => rfl
  | cons first keys ih =>
      rw [List.map_cons, List.zip_cons_cons, List.foldl_cons, ih]
      by_cases later : k ∈ keys
      · simp [later]
      · by_cases own : k = first
        · simp [own]
        · simp [later, own]

/-! ## Edits -/

/-- A key that no edit names keeps its row. -/
theorem editAll_other {edits : List (κ × (β → β))} {k : κ} (other : k ∉ edits.map Prod.fst)
    (table : κ → β) : editAll table edits k = table k := by
  unfold editAll
  induction edits generalizing table with
  | nil => rfl
  | cons edit edits ih =>
      obtain ⟨notFirst, notLater⟩ : k ≠ edit.1 ∧ k ∉ edits.map Prod.fst := by simpa using other
      rw [List.foldl_cons, ih notLater, Function.update_of_ne notFirst]

/-- With distinct keys every edit is made on the row as it was. -/
theorem editAll_mem {edits : List (κ × (β → β))} (distinct : (edits.map Prod.fst).Nodup)
    (table : κ → β) {edit : κ × (β → β)} (member : edit ∈ edits) :
    editAll table edits edit.1 = edit.2 (table edit.1) := by
  induction edits generalizing table with
  | nil => cases member
  | cons first edits ih =>
      obtain ⟨fresh, distinct⟩ := List.nodup_cons.mp distinct
      have later (table : κ → β) : editAll table (first :: edits) =
          editAll (Function.update table first.1 (first.2 (table first.1))) edits := rfl
      rw [later]
      rcases List.mem_cons.mp member with rfl | member
      · rw [editAll_other fresh, Function.update_self]
      · have other : edit.1 ≠ first.1 := fun same =>
          fresh (List.mem_map.mpr ⟨edit, member, same⟩)
        rw [ih distinct _ member, Function.update_of_ne other]

/-- What every edit keeps holds of all rows afterwards. -/
theorem editAll_keeps {Holds : β → Prop} {edits : List (κ × (β → β))}
    (keeps : ∀ edit ∈ edits, ∀ row, Holds row → Holds (edit.2 row)) {table : κ → β}
    (holds : ∀ k, Holds (table k)) (k : κ) : Holds (editAll table edits k) := by
  unfold editAll
  induction edits generalizing table with
  | nil => exact holds k
  | cons edit edits ih =>
      obtain ⟨first, later⟩ := List.forall_mem_cons.mp keeps
      rw [List.foldl_cons]
      refine ih later fun key => ?_
      by_cases own : key = edit.1
      · rw [own, Function.update_self]
        exact first _ (holds edit.1)
      · rw [Function.update_of_ne own]
        exact holds key

omit [DecidableEq κ] in
/-- The keys of zipped edits, in order. -/
theorem zip_fst_sublist {γ : Type*} (keys : List κ) (values : List γ) :
    ((keys.zip values).map Prod.fst).Sublist keys := by
  induction keys generalizing values with
  | nil => exact List.Sublist.refl _
  | cons k keys ih =>
      cases values with
      | nil => exact List.nil_sublist _
      | cons value values => exact (ih values).cons_cons k

/-- The change that stands at a key's position is the one that is made on its row. -/
theorem editAll_zip {keys : List κ} (distinct : keys.Nodup) (table : κ → β)
    {changes : List (β → β)} {i : Nat} {k : κ} {change : β → β} (key : keys[i]? = some k)
    (edit : changes[i]? = some change) :
    editAll table (keys.zip changes) k = change (table k) := by
  have member : (k, change) ∈ keys.zip changes :=
    List.mem_of_getElem? (List.getElem?_zip_eq_some.mpr ⟨key, edit⟩)
  exact editAll_mem (distinct.sublist (zip_fst_sublist keys changes)) table member

omit [DecidableEq κ] in
@[simp] theorem editColumn_length (position : κ → Nat) (column : List β)
    (edits : List (κ × (β → β))) :
    (editColumn position column edits).length = column.length := by
  unfold editColumn
  induction edits generalizing column with
  | nil => rfl
  | cons edit edits ih => rw [List.foldl_cons, ih, List.length_modify]

/-- An edit at a key's position is an edit of the key's row. -/
theorem modify_column {keys : List κ} (distinct : keys.Nodup) (table : κ → β) {k : κ} {i : Nat}
    (located : keys[i]? = some k) (change : β → β) :
    (keys.map table).modify i change = keys.map (Function.update table k (change (table k))) := by
  apply List.ext_getElem?
  intro j
  rw [List.getElem?_modify, List.getElem?_map, List.getElem?_map]
  by_cases here : i = j
  · subst here
    simp [located]
  · cases at_ : keys[j]? with
    | none => simp
    | some other =>
        have differ : other ≠ k := by
          rintro rfl
          obtain ⟨inKeys, value⟩ := List.getElem?_eq_some_iff.mp at_
          obtain ⟨inKeys', value'⟩ := List.getElem?_eq_some_iff.mp located
          exact here ((distinct.getElem_inj_iff).mp (value'.trans value.symm))
        simp [here, differ]

/-- A column stays the column of its table as long as the edits find their keys. -/
theorem editColumn_map {keys : List κ} (distinct : keys.Nodup) {position : κ → Nat}
    {edits : List (κ × (β → β))} (table : κ → β)
    (located : ∀ k ∈ edits.map Prod.fst, keys[position k]? = some k) :
    editColumn position (keys.map table) edits = keys.map (editAll table edits) := by
  unfold editColumn editAll
  induction edits generalizing table with
  | nil => rfl
  | cons edit edits ih =>
      obtain ⟨first, later⟩ : keys[position edit.1]? = some edit.1 ∧
          ∀ k ∈ edits.map Prod.fst, keys[position k]? = some k := by
        simpa using located
      rw [List.foldl_cons, List.foldl_cons, modify_column distinct table first]
      exact ih _ later

end Dolphin.Semantics
