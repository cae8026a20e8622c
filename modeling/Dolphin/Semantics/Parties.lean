import Mathlib.Logic.Relation

/-!
# Two parties

Two parties that each take the next step of their own program when they can. A run is
any interleaving of their steps. What both keep holds in every run, and a run that cannot
go on for ever can be continued until both wait or are done.
-/

namespace Dolphin.Semantics

variable {σ : Type*}

/-- The next step of each party; `none` where it waits or is done. -/
structure Parties (σ : Type*) where
  first : σ → Option σ
  second : σ → Option σ

namespace Parties

variable (parties : Parties σ)

/-- A step of one of the two. -/
inductive Step : σ → σ → Prop where
  | first {state next : σ} (move : parties.first state = some next) : Step state next
  | second {state next : σ} (move : parties.second state = some next) : Step state next

/-- The states a run can reach. -/
def Reachable : σ → σ → Prop := Relation.ReflTransGen parties.Step

/-- Neither party can go on. -/
def Blocked (state : σ) : Prop := parties.first state = none ∧ parties.second state = none

/-- The run in which the parties move in a given order, `true` for the first one. -/
def schedule : List Bool → σ → Option σ
  | [], state => some state
  | turn :: turns, state =>
      (if turn then parties.first state else parties.second state).bind (schedule turns)

variable {parties}

/-- What both parties keep holds in every run. -/
theorem Reachable.invariant {Inv : σ → Prop} {start state : σ} (initial : Inv start)
    (first : ∀ state next, Inv state → parties.first state = some next → Inv next)
    (second : ∀ state next, Inv state → parties.second state = some next → Inv next)
    (run : parties.Reachable start state) : Inv state := by
  induction run with
  | refl => exact initial
  | tail _ step ih =>
      cases step with
      | first move => exact first _ _ ih move
      | second move => exact second _ _ ih move

/-- A scheduled run is a run. -/
theorem schedule_reachable {turns : List Bool} {start state : σ}
    (run : parties.schedule turns start = some state) : parties.Reachable start state := by
  induction turns generalizing start with
  | nil =>
      obtain rfl := Option.some.inj run
      exact Relation.ReflTransGen.refl
  | cons turn turns ih =>
      obtain ⟨next, move, rest⟩ := Option.bind_eq_some_iff.mp run
      refine Relation.ReflTransGen.head ?_ (ih rest)
      cases turn with
      | true => exact .first move
      | false => exact .second move

/-- Where every step uses something up, a run goes on until both parties stop. -/
theorem exists_blocked (left : σ → Nat)
    (uses : ∀ state next, parties.Step state next → left next < left state) (start : σ) :
    ∃ state, parties.Reachable start state ∧ parties.Blocked state := by
  generalize amount : left start = count
  induction count using Nat.strongRecOn generalizing start with
  | ind count ih =>
      have continues : ∀ next, parties.Step start next →
          ∃ state, parties.Reachable start state ∧ parties.Blocked state := by
        intro next step
        obtain ⟨state, run, blocked⟩ := ih _ (amount ▸ uses start next step) next rfl
        exact ⟨state, Relation.ReflTransGen.head step run, blocked⟩
      cases first : parties.first start with
      | some next => exact continues next (.first first)
      | none =>
          cases second : parties.second start with
          | some next => exact continues next (.second second)
          | none => exact ⟨start, Relation.ReflTransGen.refl, first, second⟩

end Parties

end Dolphin.Semantics
