import Mathlib.Data.Set.Basic
import Mathlib.Data.List.Basic
import Mathlib.Data.List.Nodup

/-!
# Greedy packing

Items use one unit of each of some resources. They are taken in turn, and an item is kept
when something is left of all that it uses. The kept items stay within what there was,
and no other item could be added to them.
-/

namespace Dolphin.Semantics

open scoped Classical

/-- The items that are kept, given what is left of every resource. -/
noncomputable def pack {α κ : Type*} (uses : α → Set κ) : List α → (κ → Nat) → List α
  | [], _ => []
  | x :: xs, left =>
      if ∃ k ∈ uses x, left k < 1 then pack uses xs left
      else x :: pack uses xs fun k => if k ∈ uses x then left k - 1 else left k

/-- How many items use a resource. -/
noncomputable def load {α κ : Type*} (uses : α → Set κ) (items : List α) (k : κ) : Nat :=
  items.countP fun x => k ∈ uses x

variable {α κ : Type*} {uses : α → Set κ}

theorem load_cons (x : α) (xs : List α) (k : κ) :
    load uses (x :: xs) k = load uses xs k + if k ∈ uses x then 1 else 0 := by
  rw [load, List.countP_cons]
  simp only [decide_eq_true_eq]
  rfl

theorem load_perm {xs ys : List α} (perm : xs.Perm ys) (k : κ) :
    load uses xs k = load uses ys k :=
  perm.countP_eq _

/-- The kept items stay within what there was. -/
theorem load_pack_le (xs : List α) (left : κ → Nat) (k : κ) :
    load uses (pack uses xs left) k ≤ left k := by
  induction xs generalizing left with
  | nil => exact Nat.zero_le _
  | cons x xs ih =>
      rw [pack]
      split
      · exact ih left
      · rename_i fits
        rw [load_cons]
        have rest := ih fun k => if k ∈ uses x then left k - 1 else left k
        by_cases used : k ∈ uses x
        · have some_ : ¬left k < 1 := fun empty => fits ⟨k, used, empty⟩
          rw [if_pos used] at rest ⊢
          omega
        · rw [if_neg used] at rest ⊢
          omega

/-- What is not kept uses a resource of which the kept items leave nothing. -/
theorem exists_full_of_notMem_pack {xs : List α} {left : κ → Nat} {x : α} (member : x ∈ xs)
    (other : x ∉ pack uses xs left) :
    ∃ k ∈ uses x, load uses (pack uses xs left) k = left k := by
  suffices full : ∃ k ∈ uses x, left k ≤ load uses (pack uses xs left) k by
    obtain ⟨k, used, enough⟩ := full
    exact ⟨k, used, Nat.le_antisymm (load_pack_le xs left k) enough⟩
  induction xs generalizing left with
  | nil => exact absurd member List.not_mem_nil
  | cons y ys ih =>
      rw [pack] at other ⊢
      split at other
      · rename_i blocked
        rw [if_pos blocked]
        rcases List.mem_cons.mp member with rfl | later
        · obtain ⟨k, used, empty⟩ := blocked
          exact ⟨k, used, by omega⟩
        · exact ih later other
      · rename_i fits
        rw [if_neg fits]
        obtain ⟨notY, notLater⟩ := not_or.mp (fun either => other (List.mem_cons.mpr either))
        obtain ⟨k, used, full⟩ := ih ((List.mem_cons.mp member).resolve_left notY) notLater
        refine ⟨k, used, ?_⟩
        rw [load_cons]
        by_cases taken : k ∈ uses y
        · rw [if_pos taken] at full ⊢
          omega
        · rw [if_neg taken] at full ⊢
          omega

/-- The first item is kept if there is something of every resource. -/
theorem pack_eq_nil {xs : List α} {left : κ → Nat} (enough : ∀ k, 1 ≤ left k)
    (empty : pack uses xs left = []) : xs = [] := by
  cases xs with
  | nil => rfl
  | cons x xs =>
      have fits : ¬∃ k ∈ uses x, left k < 1 := by
        rintro ⟨k, -, none_⟩
        exact absurd (enough k) (by omega)
      rw [pack, if_neg fits] at empty
      exact absurd empty (List.cons_ne_nil _ _)

end Dolphin.Semantics
