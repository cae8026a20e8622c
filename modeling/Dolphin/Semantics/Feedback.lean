import Mathlib.Data.List.Basic

/-!
# Systems in a loop with a controller

A system is given tasks in order. It makes an observation for each task, a controller
that knows all observations so far replies, and the reply changes the state. Two systems
that make the same observations as long as they are given the same replies cannot be told
apart by any controller.
-/

namespace Dolphin.Semantics

universe u

/-- A system: its tasks, observations and replies, its states between the tasks and those
in which it waits for a reply. -/
structure Responder (τ ο ρ σ μ : Type u) where
  observe : σ → τ → Option (ο × μ)
  react : μ → ρ → σ

namespace Responder

variable {τ ο ρ σ σ' μ μ' : Type u}

/-- The observations of a run, with the state where it ends; `seen` are those before it. -/
def run (system : Responder τ ο ρ σ μ) (controller : List ο → ρ) :
    List ο → List τ → σ → Option (List ο × σ)
  | _, [], state => some ([], state)
  | seen, task :: tasks, state => do
      let (observation, waiting) ← system.observe state task
      let next := system.react waiting (controller (seen ++ [observation]))
      let (later, last) ← run system controller (seen ++ [observation]) tasks next
      some (observation :: later, last)

/-- States of two systems that stay related: for the first of the remaining tasks both
make the same observation, and after every reply that is allowed for it they are related for
the tasks behind. -/
structure SimulationOn (Allowed : ο → ρ → Prop) (first : Responder τ ο ρ σ μ)
    (second : Responder τ ο ρ σ' μ') (Related : List τ → σ → σ' → Prop) : Prop where
  turn : ∀ {task tasks state other}, Related (task :: tasks) state other →
    ∃ observation waiting waiting', first.observe state task = some (observation, waiting) ∧
      second.observe other task = some (observation, waiting') ∧
      ∀ reply, Allowed observation reply →
        Related tasks (first.react waiting reply) (second.react waiting' reply)

/-- A controller whose replies are allowed. -/
def Obeys (Allowed : ο → ρ → Prop) (controller : List ο → ρ) : Prop :=
  ∀ seen observation, Allowed observation (controller (seen ++ [observation]))

/-- Related states make the same observations under every controller that obeys. -/
theorem SimulationOn.run {Allowed : ο → ρ → Prop} {first : Responder τ ο ρ σ μ}
    {second : Responder τ ο ρ σ' μ'} {Related : List τ → σ → σ' → Prop}
    (simulation : SimulationOn Allowed first second Related) {controller : List ο → ρ}
    (obeys : Obeys Allowed controller) (seen : List ο) {tasks : List τ} {state : σ} {other : σ'}
    (related : Related tasks state other) :
    ∃ observations last last', first.run controller seen tasks state = some (observations, last) ∧
      second.run controller seen tasks other = some (observations, last') ∧
      observations.length = tasks.length ∧ Related [] last last' := by
  induction tasks generalizing seen state other with
  | nil => exact ⟨[], state, other, rfl, rfl, rfl, related⟩
  | cons task tasks ih =>
      obtain ⟨observation, waiting, waiting', own, same, next⟩ := simulation.turn related
      obtain ⟨later, last, last', rest, rest', count, ends⟩ :=
        ih (seen ++ [observation]) (next _ (obeys seen observation))
      refine ⟨observation :: later, last, last', ?_, ?_, congrArg Nat.succ count, ends⟩
      · simp only [Responder.run, own, rest, Option.bind_eq_bind, Option.bind_some]
      · simp only [Responder.run, same, rest', Option.bind_eq_bind, Option.bind_some]

/-- A simulation for all replies. -/
structure Simulation (first : Responder τ ο ρ σ μ) (second : Responder τ ο ρ σ' μ')
    (Related : List τ → σ → σ' → Prop) : Prop where
  turn : ∀ {task tasks state other}, Related (task :: tasks) state other →
    ∃ observation waiting waiting', first.observe state task = some (observation, waiting) ∧
      second.observe other task = some (observation, waiting') ∧
      ∀ reply, Related tasks (first.react waiting reply) (second.react waiting' reply)

/-- Related states make the same observations under every controller. -/
theorem Simulation.run {first : Responder τ ο ρ σ μ} {second : Responder τ ο ρ σ' μ'}
    {Related : List τ → σ → σ' → Prop} (simulation : Simulation first second Related)
    (controller : List ο → ρ) (seen : List ο) {tasks : List τ} {state : σ} {other : σ'}
    (related : Related tasks state other) :
    ∃ observations last last', first.run controller seen tasks state = some (observations, last) ∧
      second.run controller seen tasks other = some (observations, last') ∧
      observations.length = tasks.length ∧ Related [] last last' := by
  have everyReply : SimulationOn (fun _ _ => True) first second Related := by
    refine ⟨fun related => ?_⟩
    obtain ⟨observation, waiting, waiting', own, same, next⟩ := simulation.turn related
    exact ⟨observation, waiting, waiting', own, same, fun reply _ => next reply⟩
  exact everyReply.run (fun _ _ => trivial) seen related

end Responder

end Dolphin.Semantics
