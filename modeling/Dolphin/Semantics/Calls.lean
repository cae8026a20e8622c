import Mathlib.Data.List.Basic
import Mathlib.Data.List.Forall2

/-!
# A call for each element

Calls that may fail, one for each element of a list. Together they succeed when each of
them does, and then there is one result for each element.
-/

namespace Dolphin.Semantics

universe u v w

/-- The results of calls that are known. -/
theorem mapM_eq_map {ι : Type u} {β : Type v} {m : Type v → Type w} [Monad m] [LawfulMonad m]
    {f : ι → m β} {g : ι → β} {xs : List ι} (calls : ∀ x ∈ xs, f x = pure (g x)) :
    xs.mapM f = pure (xs.map g) := by
  induction xs with
  | nil => rfl
  | cons x xs ih =>
      obtain ⟨own, rest⟩ := List.forall_mem_cons.mp calls
      rw [List.mapM_cons, own, pure_bind, ih rest, pure_bind, List.map_cons]

/-- A list that is related to another one only through a function. -/
theorem eq_map_of_forall₂ {α : Type u} {β : Type v} {R : α → β → Prop} {f : α → β} {xs : List α}
    {ys : List β} (related : List.Forall₂ R xs ys) (unique : ∀ x ∈ xs, ∀ y, R x y → y = f x) :
    ys = xs.map f := by
  induction related with
  | nil => rfl
  | cons own _ ih =>
      obtain ⟨first, rest⟩ := List.forall_mem_cons.mp unique
      rw [List.map_cons, first _ own, ih rest]

section Calls

variable {α : Type u} {β : Type v} {f : α → Option β}

/-- The first call and the calls after it. -/
theorem mapM_cons_some {x : α} {xs : List α} {ys : List β} (run : (x :: xs).mapM f = some ys) :
    ∃ y rest, f x = some y ∧ xs.mapM f = some rest ∧ ys = y :: rest := by
  rw [List.mapM_cons] at run
  obtain ⟨y, own, run⟩ := Option.bind_eq_some_iff.mp run
  obtain ⟨rest, later, same⟩ := Option.bind_eq_some_iff.mp run
  exact ⟨y, rest, own, later, (Option.some.inj same).symm⟩

/-- The results of calls that all succeed, one for each argument. -/
theorem mapM_some {xs : List α} {ys : List β} (run : xs.mapM f = some ys) :
    ys.length = xs.length ∧ ∀ (i : Nat) (y : β), ys[i]? = some y →
      ∃ x, xs[i]? = some x ∧ f x = some y := by
  induction xs generalizing ys with
  | nil =>
      obtain rfl : [] = ys := by simpa using run
      simp
  | cons x xs ih =>
      obtain ⟨y, rest, own, later, rfl⟩ := mapM_cons_some run
      obtain ⟨length, each⟩ := ih later
      refine ⟨by rw [List.length_cons, List.length_cons, length], ?_⟩
      intro i z at_
      cases i with
      | zero => exact ⟨x, rfl, own.trans at_⟩
      | succ i => exact each i z at_

/-- Calls that each succeed succeed together. -/
theorem mapM_isSome {xs : List α} (calls : ∀ x ∈ xs, ∃ y, f x = some y) :
    ∃ ys, xs.mapM f = some ys := by
  induction xs with
  | nil => exact ⟨[], rfl⟩
  | cons x xs ih =>
      obtain ⟨⟨y, own⟩, rest⟩ := List.forall_mem_cons.mp calls
      obtain ⟨ys, later⟩ := ih rest
      refine ⟨y :: ys, ?_⟩
      rw [List.mapM_cons, own, later]
      rfl

/-- Calls that succeed together each succeed. -/
theorem mapM_isSome_iff {xs : List α} :
    (∃ ys, xs.mapM f = some ys) ↔ ∀ x ∈ xs, ∃ y, f x = some y := by
  constructor
  · rintro ⟨ys, run⟩ x member
    obtain ⟨length, each⟩ := mapM_some run
    obtain ⟨i, bound, rfl⟩ := List.mem_iff_getElem.mp member
    have inside : i < ys.length := length ▸ bound
    obtain ⟨x, at_, own⟩ := each i ys[i] (List.getElem?_eq_getElem inside)
    rw [List.getElem?_eq_getElem bound] at at_
    obtain rfl := Option.some.inj at_
    exact ⟨ys[i], own⟩
  · exact mapM_isSome

/-- Calls on the results of calls. -/
theorem mapM_bind_mapM {γ : Type v} (g : β → Option γ) (xs : List α) :
    ((xs.mapM f).bind fun ys => ys.mapM g) = xs.mapM fun x => (f x).bind g := by
  induction xs with
  | nil => rfl
  | cons x xs ih =>
      rw [List.mapM_cons, List.mapM_cons, ← ih]
      cases f x with
      | none => rfl
      | some y =>
          cases xs.mapM f with
          | none =>
              cases own : g y with
              | none => simp [own]
              | some z => simp [own]
          | some ys => simp [List.mapM_cons]

/-- The calls succeed with results of which something holds, exactly if each does. -/
theorem exists_mapM_forall₂_iff {R : α → β → Prop} {xs : List α} :
    (∃ ys, xs.mapM f = some ys ∧ List.Forall₂ R xs ys) ↔ ∀ x ∈ xs, ∃ y, f x = some y ∧ R x y := by
  induction xs with
  | nil =>
      constructor
      · intro _ x member
        exact absurd member List.not_mem_nil
      · intro _
        exact ⟨[], rfl, .nil⟩
  | cons x xs ih =>
      rw [List.forall_mem_cons, ← ih]
      constructor
      · rintro ⟨ys, run, related⟩
        obtain ⟨y, rest, own, later, rfl⟩ := mapM_cons_some run
        obtain ⟨head, tail⟩ := List.forall₂_cons.mp related
        exact ⟨⟨y, own, head⟩, rest, later, tail⟩
      · rintro ⟨⟨y, own, head⟩, ys, later, tail⟩
        refine ⟨y :: ys, ?_, .cons head tail⟩
        rw [List.mapM_cons, own, later]
        rfl

end Calls

end Dolphin.Semantics
