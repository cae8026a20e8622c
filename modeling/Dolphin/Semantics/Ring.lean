import Mathlib.Data.List.Basic
import Mathlib.Data.List.Induction
import Mathlib.Data.Nat.ModEq

/-!
# Rings of slots

Values are written to consecutive slots, and to the first slot again after the last one.
A ring keeps the latest values, as many as it has slots.
-/

namespace Dolphin.Semantics

variable {β : Type*}

/-- Values written to a ring, the first one to the slot `start`. -/
def pushAll (start : Nat) (slots values : List β) : List β :=
  (values.zipIdx start).foldl (fun slots push => slots.set (push.2 % slots.length) push.1) slots

theorem pushAll_length (start : Nat) (slots values : List β) :
    (pushAll start slots values).length = slots.length := by
  unfold pushAll
  induction values generalizing start slots with
  | nil => rfl
  | cons value values ih =>
      rw [List.zipIdx_cons, List.foldl_cons, ih, List.length_set]

/-- The last value goes to the slot behind the others. -/
theorem pushAll_snoc (start : Nat) (slots values : List β) (value : β) :
    pushAll start slots (values ++ [value]) =
      (pushAll start slots values).set ((start + values.length) % slots.length) value := by
  have sized := pushAll_length start slots values
  unfold pushAll at sized ⊢
  rw [List.zipIdx_append, List.foldl_append, List.zipIdx_singleton, List.foldl_cons, List.foldl_nil,
    sized]

/-- Values that are less than a round apart are in different slots. -/
theorem slot_ne {size i j : Nat} (before : i < j) (near : j < i + size) :
    i % size ≠ j % size := by
  intro same
  have multiple := (Nat.modEq_iff_dvd' before.le).mp same
  have bound := Nat.le_of_dvd (Nat.sub_pos_of_lt before) multiple
  omega

/-- Every value that less than a round of values follows is in its slot. -/
theorem pushAll_recent {start i : Nat} {slots values : List β} (bound : i < values.length)
    (recent : values.length ≤ i + slots.length) :
    (pushAll start slots values)[(start + i) % slots.length]? = values[i]? := by
  induction values using List.reverseRecOn with
  | nil => simp at bound
  | append_singleton values value ih =>
      rw [List.length_append, List.length_singleton] at bound recent
      rw [pushAll_snoc]
      rcases (Nat.le_of_lt_succ bound).eq_or_lt with rfl | earlier
      · have inSlots : (start + values.length) % slots.length < slots.length :=
          Nat.mod_lt _ (by omega)
        rw [List.getElem?_set_self (by rwa [pushAll_length]), List.getElem?_concat_length]
      · have other := @slot_ne slots.length _ _ (Nat.add_lt_add_left earlier start) (by omega)
        rw [List.getElem?_set_ne other.symm, ih earlier (by omega),
          List.getElem?_append_left earlier]

end Dolphin.Semantics
