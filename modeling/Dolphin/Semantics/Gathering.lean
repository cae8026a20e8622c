import Mathlib.Data.List.Basic
import Mathlib.Data.List.Perm.Basic

/-!
# Parts of a whole that are made in parallel

The parts are gathered one behind the other as they complete, or each is written at its
place in the whole. Gathered, the whole is that of every order exactly if any two parts
commute; written, the order does not matter as long as every place gets what the whole has
there.
-/

namespace Dolphin.Semantics

variable {α β : Type}

/-- The order in which parts that were submitted complete. -/
structure Completion (α : Type) where
  order : List α → List α
  perm : ∀ submitted, (order submitted).Perm submitted

/-- Everything completes in the order in which it was submitted. -/
def Completion.inOrder : Completion α := ⟨id, fun _ => .refl _⟩

/-- The last part completes first. -/
def Completion.backwards : Completion α := ⟨List.reverse, List.reverse_perm⟩

/-- One list of parts completes in a given order, every other as it was submitted. -/
def Completion.only [DecidableEq α] {submitted completed : List α}
    (perm : completed.Perm submitted) : Completion α where
  order parts := if parts = submitted then completed else parts
  perm parts := by
    split
    · next same => exact same ▸ perm
    · exact .refl _

@[simp]
theorem Completion.only_order [DecidableEq α] {submitted completed : List α}
    (perm : completed.Perm submitted) : (Completion.only perm).order submitted = completed :=
  if_pos rfl

/-! ## Gathering -/

/-- Parts that commute with each other make the same whole in every order. -/
theorem flatMap_flatten_perm {f : α → List β} {parts completed : List (List α)}
    (order : completed.Perm parts)
    (commute : ∀ part ∈ parts, ∀ other ∈ parts,
      (part ++ other).flatMap f = (other ++ part).flatMap f) :
    completed.flatten.flatMap f = parts.flatten.flatMap f := by
  induction order with
  | nil => rfl
  | cons part _ ih =>
      simp only [List.flatten_cons, List.flatMap_append]
      rw [ih fun one oneIn two twoIn =>
        commute one (List.mem_cons_of_mem _ oneIn) two (List.mem_cons_of_mem _ twoIn)]
  | swap part other rest =>
      have exchanged := commute part (by simp) other (by simp)
      simp only [List.flatMap_append] at exchanged
      simp only [List.flatten_cons, List.flatMap_append, ← List.append_assoc, exchanged]
  | trans _ late first second =>
      rw [first fun one oneIn two twoIn =>
        commute one (late.mem_iff.mp oneIn) two (late.mem_iff.mp twoIn), second commute]

/-- The whole is the same in every order exactly if any two of its parts commute. -/
theorem flatMap_flatten_perm_iff {f : α → List β} {parts : List (List α)} :
    (∀ completed : List (List α), completed.Perm parts →
      completed.flatten.flatMap f = parts.flatten.flatMap f) ↔
    ∀ part ∈ parts, ∀ other ∈ parts, (part ++ other).flatMap f = (other ++ part).flatMap f := by
  classical
  constructor
  · intro same part partIn other otherIn
    by_cases equal : part = other
    · rw [equal]
    · -- The two parts in front of the rest, in both orders.
      have second : other ∈ parts.erase part :=
        (List.mem_erase_of_ne fun reverse => equal reverse.symm).mpr otherIn
      have split : (part :: other :: (parts.erase part).erase other).Perm parts :=
        ((List.perm_cons_erase second).symm.cons part).trans (List.perm_cons_erase partIn).symm
      have both := (same _ split).trans (same _ ((List.Perm.swap part other _).trans split)).symm
      have ahead : (part ++ other).flatMap f ++ ((parts.erase part).erase other).flatten.flatMap f =
          (other ++ part).flatMap f ++ ((parts.erase part).erase other).flatten.flatMap f := by
        rw [← List.flatMap_append, ← List.flatMap_append, List.append_assoc, List.append_assoc]
        exact both
      exact List.append_cancel_right ahead
  · intro commute completed order
    exact flatMap_flatten_perm order commute

/-! ## Writing at a place -/

/-- Elements from a position on are replaced. -/
def splice (whole : List β) (start : Nat) (values : List β) : List β :=
  whole.take start ++ values ++ whole.drop (start + values.length)

theorem length_splice {whole values : List β} {start : Nat}
    (fits : start + values.length ≤ whole.length) :
    (splice whole start values).length = whole.length := by
  simp only [splice, List.length_append, List.length_take, List.length_drop]
  omega

theorem mem_splice {whole values : List β} {start : Nat} {x : β}
    (member : x ∈ splice whole start values) : x ∈ whole ∨ x ∈ values := by
  rcases List.mem_append.mp member with front | behind
  · rcases List.mem_append.mp front with first | own
    · exact Or.inl (List.mem_of_mem_take first)
    · exact Or.inr own
  · exact Or.inl (List.mem_of_mem_drop behind)

theorem getElem?_splice {whole values : List β} {start : Nat}
    (fits : start + values.length ≤ whole.length) (i : Nat) :
    (splice whole start values)[i]? =
      if start ≤ i ∧ i < start + values.length then values[i - start]? else whole[i]? := by
  have front : (whole.take start).length = start := by
    rw [List.length_take]
    omega
  rw [splice, List.append_assoc]
  by_cases early : i < start
  · rw [List.getElem?_append_left (by omega), if_neg (by omega), List.getElem?_take_of_lt early]
  · rw [List.getElem?_append_right (by omega), front]
    by_cases inside : i < start + values.length
    · rw [List.getElem?_append_left (by omega), if_pos ⟨by omega, inside⟩]
    · rw [List.getElem?_append_right (by omega), if_neg fun both => inside both.2,
        List.getElem?_drop]
      congr 1
      omega

/-- Every place that is not right already is written, and each write is right. -/
theorem foldl_splice_eq {target whole : List β} {writes : List (Nat × List β)}
    (length : whole.length = target.length)
    (right : ∀ write ∈ writes, ∃ before after,
      target = before ++ write.2 ++ after ∧ before.length = write.1)
    (covered : ∀ i < target.length, whole[i]? = target[i]? ∨
      ∃ write ∈ writes, write.1 ≤ i ∧ i < write.1 + write.2.length) :
    writes.foldl (fun whole write => splice whole write.1 write.2) whole = target := by
  induction writes generalizing whole with
  | nil =>
      rw [List.foldl_nil]
      apply List.ext_getElem?
      intro i
      by_cases inside : i < target.length
      · exact (covered i inside).resolve_right (by simp)
      · rw [List.getElem?_eq_none (by omega), List.getElem?_eq_none (by omega)]
  | cons write writes ih =>
      obtain ⟨⟨before, after, split, start⟩, rest⟩ := List.forall_mem_cons.mp right
      have fits : write.1 + write.2.length ≤ whole.length := by
        rw [length, split, List.length_append, List.length_append, start]
        omega
      refine ih ((length_splice fits).trans length) rest fun i inside => ?_
      rw [getElem?_splice fits]
      by_cases own : write.1 ≤ i ∧ i < write.1 + write.2.length
      · refine Or.inl ?_
        rw [if_pos own, split, List.append_assoc, List.getElem?_append_right (by omega), start,
          List.getElem?_append_left (by omega)]
      · rw [if_neg own]
        rcases covered i inside with right | ⟨other, member, within⟩
        · exact Or.inl right
        · rcases List.mem_cons.mp member with rfl | later
          · exact absurd within own
          · exact Or.inr ⟨other, later, within⟩

theorem length_foldl_splice {whole : List β} {writes : List (Nat × List β)}
    (fit : ∀ write ∈ writes, write.1 + write.2.length ≤ whole.length) :
    (writes.foldl (fun whole write => splice whole write.1 write.2) whole).length =
      whole.length := by
  induction writes generalizing whole with
  | nil => rfl
  | cons write writes ih =>
      obtain ⟨own, rest⟩ := List.forall_mem_cons.mp fit
      rw [List.foldl_cons, ih (by rwa [length_splice own]), length_splice own]

/-- A place that no write covers keeps what it has. -/
theorem getElem?_foldl_splice {whole : List β} {writes : List (Nat × List β)} {i : Nat}
    (fit : ∀ write ∈ writes, write.1 + write.2.length ≤ whole.length)
    (elsewhere : ∀ write ∈ writes, i < write.1 ∨ write.1 + write.2.length ≤ i) :
    (writes.foldl (fun whole write => splice whole write.1 write.2) whole)[i]? = whole[i]? := by
  induction writes generalizing whole with
  | nil => rfl
  | cons write writes ih =>
      obtain ⟨own, rest⟩ := List.forall_mem_cons.mp fit
      obtain ⟨outside, later⟩ := List.forall_mem_cons.mp elsewhere
      rw [List.foldl_cons, ih (by rwa [length_splice own]) later, getElem?_splice own,
        if_neg (by omega)]

/-- What holds of everything there and of everything written holds in the end. -/
theorem forall_mem_foldl_splice {P : β → Prop} {whole : List β} {writes : List (Nat × List β)}
    (there : ∀ x ∈ whole, P x) (written : ∀ write ∈ writes, ∀ x ∈ write.2, P x) :
    ∀ x ∈ writes.foldl (fun whole write => splice whole write.1 write.2) whole, P x := by
  induction writes generalizing whole with
  | nil => exact there
  | cons write writes ih =>
      obtain ⟨own, rest⟩ := List.forall_mem_cons.mp written
      refine ih (fun x member => ?_) rest
      rcases mem_splice member with old | new
      · exact there x old
      · exact own x new

end Dolphin.Semantics
