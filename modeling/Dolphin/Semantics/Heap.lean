import Mathlib.Logic.Function.Basic

/-!
# References to objects

Objects that are reached through references. Two references may name one object; making a
reference private gives it an object of its own and leaves every other one alone.
-/

namespace Dolphin.Semantics

variable {β : Type*}

/-- Objects by reference; the references from `fresh` on are not used yet. -/
structure Heap (β : Type*) where
  object : Nat → β
  fresh : Nat

namespace Heap

/-- An object is replaced. -/
def set (heap : Heap β) (ref : Nat) (object : β) : Heap β :=
  { heap with object := Function.update heap.object ref object }

/-- A new object and its reference. -/
def alloc (heap : Heap β) (object : β) : Heap β × Nat :=
  (⟨Function.update heap.object heap.fresh object, heap.fresh + 1⟩, heap.fresh)

/-- The same reference when the object is wanted as it is, else one to a converted copy. -/
def convert (heap : Heap β) (ref : Nat) (wanted : β → Bool) (copy : β → β) : Heap β × Nat :=
  if wanted (heap.object ref) then (heap, ref) else heap.alloc (copy (heap.object ref))

@[simp] theorem set_self (heap : Heap β) (ref : Nat) (object : β) :
    (heap.set ref object).object ref = object :=
  Function.update_self ..

theorem set_of_ne (heap : Heap β) {ref other : Nat} (object : β) (apart : other ≠ ref) :
    (heap.set ref object).object other = heap.object other :=
  Function.update_of_ne apart ..

theorem convert_of_wanted {heap : Heap β} {ref : Nat} {wanted : β → Bool} (copy : β → β)
    (kept : wanted (heap.object ref) = true) : heap.convert ref wanted copy = (heap, ref) :=
  if_pos kept

/-- A conversion leaves the objects that are in use alone. -/
theorem convert_object {heap : Heap β} {ref other : Nat} (wanted : β → Bool) (copy : β → β)
    (used : other < heap.fresh) :
    (heap.convert ref wanted copy).1.object other = heap.object other := by
  rw [convert]
  split
  · rfl
  · exact Function.update_of_ne (Nat.ne_of_lt used) ..

/-- A conversion gives no reference that was already in use elsewhere. -/
theorem convert_ne {heap : Heap β} {ref other : Nat} (wanted : β → Bool) (copy : β → β)
    (used : other < heap.fresh)
    (apart : ref ≠ other ∨ wanted (heap.object ref) = false) :
    (heap.convert ref wanted copy).2 ≠ other := by
  rw [convert]
  split
  · next kept =>
      rcases apart with apart | wants
      · exact apart
      · rw [wants] at kept
        cases kept
  · exact Nat.ne_of_gt used

end Heap

end Dolphin.Semantics
