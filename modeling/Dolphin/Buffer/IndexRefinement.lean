import Dolphin.Buffer.IndexCalls
import Mathlib.Data.List.Induction

/-!
# When the calls refine direct access

While every table and all values have `float32` elements, both references name the shared
tensor. The first call with another type fails or returns what was in the tensor before: the
side that writes is rebound to a tensor of its own.
-/

namespace Dolphin.Buffer.IndexCalls

open Dolphin.Semantics Dolphin.Store

variable {α : Type*} {conversion : Conversion α}

/-! ## A transfer -/

/-- A tensor of `float32` elements that is in use. -/
structure Floats (size : Nat) (tensors : Heap (Share α)) (ref : Nat) : Prop where
  used : ref < tensors.fresh
  float : (tensors.object ref).dtype = .float32
  sized : (tensors.object ref).cells.length = size

theorem toDType_kept {tensors : Heap (Share α)} {ref : Nat} {dtype : DType}
    (kept : (tensors.object ref).dtype = dtype) :
    toDType conversion tensors ref dtype = (tensors, ref) :=
  Heap.convert_of_wanted _ (decide_eq_true kept)

variable (conversion) in
/-- Values of `float32` are written as they are. -/
theorem Floats.write {size : Nat} {tensors : Heap (Share α)} {ref : Nat}
    (floats : Floats size tensors ref) {value : Tensor α} (float : value.dtype = .float32)
    (fits : value.data.length ≤ size) :
    ∃ sent, IndexCalls.write conversion tensors ref value = some sent ∧ Floats size sent ref ∧
      read sent ref value = value := by
  have room : value.data.length ≤ (tensors.object ref).cells.length := by
    rw [floats.sized]
    exact fits
  have own : value.dtype = (tensors.object ref).dtype := float.trans floats.float.symm
  have cast : value.data.map (conversion.cast value.dtype (tensors.object ref).dtype) =
      value.data := by
    rw [← own, List.map_congr_left fun x _ => conversion.same value.dtype x, List.map_id']
  refine ⟨_, if_pos room, ⟨floats.used, ?_, ?_⟩, ?_⟩
  · rw [Heap.set_self]
    exact floats.float
  · rw [Heap.set_self, List.length_append, List.length_map, List.length_drop,
      Nat.add_sub_cancel' room, floats.sized]
  · rw [read, Heap.set_self, cast, ← own]
    simp only [List.take_left]

/-- A side that is rebound no longer writes what the other side reads. -/
theorem Floats.read_rebound {size : Nat} {tensors sent : Heap (Share α)} {ref : Nat}
    {value like : Tensor α} (floats : Floats size tensors ref) (other : value.dtype ≠ .float32)
    (written : IndexCalls.write conversion (toDType conversion tensors ref value.dtype).1
      (toDType conversion tensors ref value.dtype).2 value = some sent) :
    (read sent ref like).dtype = .float32 := by
  have rebound : (tensors.object ref).dtype ≠ value.dtype := by
    rw [floats.float]
    exact other.symm
  have apart : ref ≠ (toDType conversion tensors ref value.dtype).2 :=
    (Heap.convert_ne _ _ floats.used (Or.inr (decide_eq_false rebound))).symm
  rw [IndexCalls.write] at written
  split at written
  · obtain rfl := Option.some.inj written
    rw [read, Heap.set_of_ne _ _ apart, toDType, Heap.convert_object _ _ floats.used]
    exact floats.float
  · cases written

/-! ## A call -/

/-- Both processes refer to one tensor of `float32` elements. -/
structure Joined (size : Nat) (state : Processes α) : Prop where
  same : state.shareTmp = state.shareTmpTensor
  floats : Floats size state.tensors state.shareTmpTensor

theorem joined_initial (zero : α) (tmpTensorNum : Nat) (tables : Tables α) :
    Joined tmpTensorNum (initial zero tmpTensorNum tables) :=
  ⟨rfl, Nat.one_pos, rfl, List.length_replicate⟩

variable {size : Nat} {state : Processes α} {next : Call α}

theorem select_dtype {table : Table α} {indices : List Nat} {res : Tensor α}
    (rows : table.select indices = some res) : res.dtype = table.dtype := by
  obtain ⟨_, -, rfl⟩ := Option.map_eq_some_iff.mp rows
  rfl

theorem types_eq {tables : Tables α} {name : String} {table : Table α}
    (held : tables name = some table) : types tables name = some table.dtype := by
  rw [types, held, Option.map_some]

variable (conversion) in
/-- A call on `float32` elements does what direct access does, and leaves the references as
they are. -/
theorem Joined.right (joined : Joined size state) (fits : Fits size state.tables next)
    (floats : OnFloats state.tables next) :
    ∃ result after, call conversion state next = some (result, after) ∧
      direct state.tables next = some (result, after.tables) ∧ Joined size after := by
  cases next with
  | select name indices =>
      obtain ⟨table, res, held, rows, room⟩ := fits
      have float : res.dtype = .float32 := by
        rw [select_dtype rows]
        exact Option.some.inj ((types_eq held).symm.trans floats)
      obtain ⟨sent, written, kept, found⟩ := joined.floats.write conversion float room
      have stays := @toDType_kept α conversion _ _ _ (joined.floats.float.trans float.symm)
      refine ⟨some res, ⟨sent, state.shareTmpTensor, state.shareTmpTensor, state.tables⟩, ?_, ?_,
        rfl, kept⟩
      · simp only [call, selectIndex, held, rows, joined.same, stays, written, found,
          Option.bind_eq_bind, Option.bind_some, Option.map_some]
      · simp only [direct, held, rows, Option.bind_eq_bind, Option.bind_some]
  | update name indices value =>
      obtain ⟨table, held, takes, room⟩ := fits
      obtain ⟨tableFloat, float⟩ := floats
      have own : value.dtype = table.dtype :=
        float.trans (Option.some.inj ((types_eq held).symm.trans tableFloat)).symm
      obtain ⟨sent, written, kept, found⟩ := joined.floats.write conversion float room
      have stays := @toDType_kept α conversion _ _ _ (joined.floats.float.trans float.symm)
      obtain ⟨changed, assigned⟩ : ∃ changed, table.assign indices value = some changed :=
        ⟨_, if_pos ⟨takes, own⟩⟩
      refine ⟨none, ⟨sent, state.shareTmpTensor, state.shareTmpTensor,
        Function.update state.tables name (some changed)⟩, ?_, ?_, rfl, kept⟩
      · simp only [call, updateIndex, held, joined.same, stays, written, found, assigned,
          Option.bind_eq_bind, Option.bind_some, Option.map_some]
      · simp only [direct, held, assigned, Option.bind_eq_bind, Option.bind_some]

/-- A call on other elements does not. -/
theorem Joined.wrong (joined : Joined size state) (fits : Fits size state.tables next)
    (other : ¬OnFloats state.tables next) : ¬Right conversion state next := by
  rintro ⟨result, after, ended, access⟩
  cases next with
  | select name indices =>
      obtain ⟨table, res, held, rows, -⟩ := fits
      have apart : res.dtype ≠ .float32 := by
        intro float
        refine other ((types_eq held).trans ?_)
        rw [← select_dtype rows, float]
      simp only [call, selectIndex, held, rows, joined.same, Option.bind_eq_bind, Option.bind_some,
        Option.map_eq_some_iff, Option.bind_eq_some_iff] at ended
      obtain ⟨_, ⟨sent, written, same⟩, returned⟩ := ended
      obtain rfl := Option.some.inj same
      obtain ⟨rfl, -⟩ := Prod.mk.inj returned
      simp only [direct, held, rows, Option.bind_eq_bind, Option.bind_some, Option.some.injEq,
        Prod.mk.injEq] at access
      -- the main process returns elements of its own tensor
      exact apart (access.1 ▸ joined.floats.read_rebound apart written)
  | update name indices value =>
      obtain ⟨table, held, -, -⟩ := fits
      simp only [direct, held, Option.bind_eq_bind, Option.bind_some,
        Option.bind_eq_some_iff] at access
      obtain ⟨_, assigned, -⟩ := access
      rw [Table.assign, Option.ite_none_right_eq_some] at assigned
      have own := assigned.1.2
      have apart : value.dtype ≠ .float32 := by
        intro float
        refine other ⟨(types_eq held).trans ?_, float⟩
        rw [← own, float]
      simp only [call, updateIndex, held, joined.same, Option.bind_eq_bind, Option.bind_some,
        Option.map_eq_some_iff, Option.bind_eq_some_iff] at ended
      obtain ⟨_, ⟨sent, written, _, stale, -⟩, -⟩ := ended
      rw [Table.assign, Option.ite_none_right_eq_some] at stale
      -- the worker assigns elements of its own tensor, for which its table has another type
      have float := @Floats.read_rebound α conversion size state.tensors sent _ value value
        joined.floats apart written
      exact apart ((own.trans stale.1.2.symm).trans float)

/-- The tables keep their types. -/
theorem direct_types {tables after : Tables α} {result : Option (Tensor α)}
    (access : direct tables next = some (result, after)) : types after = types tables := by
  cases next with
  | select name indices =>
      obtain ⟨_, -, access⟩ := Option.bind_eq_some_iff.mp access
      obtain ⟨_, -, same⟩ := Option.bind_eq_some_iff.mp access
      obtain ⟨-, rfl⟩ := Prod.mk.inj (Option.some.inj same)
      rfl
  | update name indices value =>
      obtain ⟨table, held, access⟩ := Option.bind_eq_some_iff.mp access
      obtain ⟨changed, assigned, same⟩ := Option.bind_eq_some_iff.mp access
      obtain ⟨-, rfl⟩ := Prod.mk.inj (Option.some.inj same)
      rw [Table.assign, Option.ite_none_right_eq_some] at assigned
      obtain rfl := Option.some.inj assigned.2
      funext other
      by_cases own : other = name
      · subst own
        rw [types, Function.update_self, types_eq held]
        rfl
      · rw [types, Function.update_of_ne own, types]

theorem onFloats_congr {tables others : Tables α} (same : types tables = types others)
    (next : Call α) : OnFloats tables next ↔ OnFloats others next := by
  cases next with
  | select name indices => rw [OnFloats, OnFloats, same]
  | update name indices value => rw [OnFloats, OnFloats, same]

/-! ## Runs -/

/-- Calls on `float32` elements succeed one after the other. -/
theorem Joined.run {calls : List (Call α)} (joined : Joined size state)
    (fits : ∀ early next late, calls = early ++ next :: late → ∀ reached,
      IndexCalls.run conversion state early = some reached → Fits size reached.tables next)
    (floats : ∀ next ∈ calls, OnFloats state.tables next) :
    ∃ reached, IndexCalls.run conversion state calls = some reached ∧ Joined size reached ∧
      types reached.tables = types state.tables := by
  induction calls generalizing state with
  | nil => exact ⟨state, rfl, joined, rfl⟩
  | cons next calls ih =>
      obtain ⟨here, rest⟩ := List.forall_mem_cons.mp floats
      obtain ⟨result, after, ended, access, still⟩ :=
        joined.right conversion (fits [] next calls rfl state rfl) here
      have stepped (more : List (Call α)) : IndexCalls.run conversion state (next :: more) =
          IndexCalls.run conversion after more := by
        rw [IndexCalls.run, List.foldlM_cons, ended]
        rfl
      have types := direct_types access
      obtain ⟨reached, ran, joined, same⟩ := ih still
        (fun early other late split reached ran =>
          fits (next :: early) other late (congrArg (next :: ·) split) reached
            ((stepped early).trans ran))
        fun other member => (onFloats_congr types other).mpr (rest other member)
      exact ⟨reached, (stepped calls).trans ran, joined, same.trans types⟩

/-- A sequence of calls refines direct access exactly if all tables it names and all values
it gives have `float32` elements. -/
theorem refines_iff (conversion : Conversion α) (zero : α) (tmpTensorNum : Nat)
    (tables : Tables α) (calls : List (Call α))
    (fits : ∀ early next late, calls = early ++ next :: late → ∀ reached,
      run conversion (initial zero tmpTensorNum tables) early = some reached →
        Fits tmpTensorNum reached.tables next) :
    Refines conversion (initial zero tmpTensorNum tables) calls ↔
      ∀ next ∈ calls, OnFloats tables next := by
  have joined := joined_initial zero tmpTensorNum tables
  have prefixFits {early late : List (Call α)} (split : calls = early ++ late) :
      ∀ before next after, early = before ++ next :: after → ∀ reached,
        run conversion (initial zero tmpTensorNum tables) before = some reached →
          Fits tmpTensorNum reached.tables next := by
    rintro before next after rfl
    exact fits before next (after ++ late) (by rw [split, List.append_assoc, List.cons_append])
  constructor
  · intro refines
    -- the first calls up to any of them are on floats, by induction on their number
    suffices ∀ early late, calls = early ++ late → ∀ next ∈ early, OnFloats tables next from
      this calls [] (List.append_nil calls).symm
    intro early
    induction early using List.reverseRecOn with
    | nil => exact fun _ _ => nofun
    | append_singleton early next ih =>
        intro late split
        rw [List.append_assoc] at split
        have before := ih _ split
        obtain ⟨reached, ran, joined, same⟩ := joined.run (prefixFits split) before
        have right := refines early next late split reached ran
        refine List.forall_mem_append.mpr ⟨before, List.forall_mem_singleton.mpr ?_⟩
        by_contra other
        exact joined.wrong (fits early next late split reached ran)
          (mt (onFloats_congr same next).mp other) right
  · intro floats early next late split reached ran
    obtain ⟨here, later⟩ := List.forall_mem_append.mp (split ▸ floats)
    obtain ⟨other, ran', joined, same⟩ := joined.run (prefixFits split) here
    obtain rfl := Option.some.inj (ran.symm.trans ran')
    obtain ⟨result, after, ended, access, -⟩ := joined.right conversion
      (fits early next late split reached ran)
      ((onFloats_congr same next).mpr (List.forall_mem_cons.mp later).1)
    exact ⟨result, after, ended, access⟩

/-- Elements that every type can hold. -/
def smallNumbers : Conversion Nat := ⟨fun _ _ x => x, fun _ _ => rfl⟩

/-- A table of two rows of one element. -/
def oneTable (dtype : DType) : Tables Nat :=
  Function.update (fun _ => none) "memory_ts" (some ⟨dtype, [1], [[1], [2]]⟩)

theorem refines_iff_updateSelect :
    Refines smallNumbers (initial 0 4 (oneTable .float32))
        [.update "memory_ts" [0] ⟨.float32, [1, 1], [5]⟩, .select "memory_ts" [0, 1]] ↔
      ∀ next ∈ [.update "memory_ts" [0] ⟨.float32, [1, 1], [5]⟩, .select "memory_ts" [0, 1]],
        OnFloats (oneTable .float32) next := by
  refine refines_iff smallNumbers 0 4 (oneTable .float32) _ ?_
  intro early next late split reached ran
  cases early with
  | nil =>
      obtain ⟨rfl, -⟩ := List.cons.inj split
      obtain rfl := Option.some.inj ran
      exact ⟨_, rfl, by decide, by decide⟩
  | cons first early =>
      obtain ⟨rfl, rest⟩ := List.cons.inj split
      cases early with
      | nil =>
          obtain ⟨rfl, -⟩ := List.cons.inj rest
          obtain rfl := Option.some.inj ran
          exact ⟨_, _, rfl, rfl, by decide⟩
      | cons second early =>
          have empty := congrArg List.length (List.cons.inj rest).2
          simp at empty

/-- Half-precision rows do not reach the main process: it reads zeros of `float32`. -/
theorem half_not_refines :
    ¬Refines smallNumbers (initial 0 4 (oneTable .float16)) [.select "memory_ts" [0, 1]] := by
  intro refines
  obtain ⟨result, after, ended, access⟩ := refines [] _ [] rfl _ rfl
  have read := congrArg (Option.map Prod.fst) ended
  have rows := congrArg (Option.map Prod.fst) access
  exact absurd (read.trans rows.symm) (by decide)

end Dolphin.Buffer.IndexCalls
