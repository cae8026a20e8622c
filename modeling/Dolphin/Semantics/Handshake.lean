import Mathlib.Data.List.Count
import Mathlib.Logic.Function.Basic
import Mathlib.Logic.Relation

/-!
# A client and a server with reply pipes

A client runs a program of local steps, requests, receipts and accesses to the memory
it shares with a server. The server takes the requests in order, handles each in
several steps on that memory and then puts a reply into the pipe the request is
answered on. Both proceed at their own pace.

`runSeq` executes the program alone: a request is handled the moment it is sent. A
program is disciplined if it receives only replies it is owed and touches the shared
memory only when no request is outstanding. Every interleaving of a disciplined
program can be completed, and whenever it is complete, client and memory are those of
`runSeq`. The invariant behind it is that handling what the server still has to do
does not change the outcome. A program that raises is run up to where it does.
-/

namespace Dolphin.Semantics

variable {σ ω ρ π : Type*}

/-- What the client does. -/
inductive Command (σ ω ρ π : Type*) where
  /-- A step on the client's own state. -/
  | run (f : σ → σ)
  /-- A request, made from the client's state. -/
  | send (request : σ → ρ)
  /-- The client waits for a reply. -/
  | recv (pipe : π)
  /-- An access to the shared memory. -/
  | share (f : σ → ω → σ × ω)

/-- How the server answers: the steps of handling a request, and the pipe its reply
goes to. -/
structure Service (ω ρ π : Type*) where
  handle : ρ → List (ω → ω)
  reply : ρ → π

/-- The pipes, and the request that is being handled with its remaining steps. -/
structure Server (ω ρ π : Type*) where
  queue : List ρ
  busy : Option (List (ω → ω) × π)
  replies : π → Nat

/-- Client and server. -/
structure System (σ ω ρ π : Type*) where
  client : σ
  program : List (Command σ ω ρ π)
  memory : ω
  server : Server ω ρ π

/-- No request and no reply is under way. -/
def Server.quiet : Server ω ρ π := ⟨[], none, fun _ => 0⟩

/-- The steps of a request, one after the other. -/
def runSteps (steps : List (ω → ω)) (memory : ω) : ω :=
  steps.foldl (fun memory step => step memory) memory

/-- The program with every request handled as soon as it is sent. -/
def runSeq (service : Service ω ρ π) : List (Command σ ω ρ π) → σ → ω → σ × ω
  | [], client, memory => (client, memory)
  | .run f :: program, client, memory => runSeq service program (f client) memory
  | .send request :: program, client, memory =>
      runSeq service program client (runSteps (service.handle (request client)) memory)
  | .recv _ :: program, client, memory => runSeq service program client memory
  | .share f :: program, client, memory =>
      runSeq service program (f client memory).1 (f client memory).2

theorem runSeq_append (service : Service ω ρ π) (first second : List (Command σ ω ρ π))
    (client : σ) (memory : ω) :
    runSeq service (first ++ second) client memory =
      runSeq service second (runSeq service first client memory).1
        (runSeq service first client memory).2 := by
  induction first generalizing client memory with
  | nil => rfl
  | cons command first ih =>
      cases command with
      | run f => exact ih _ _
      | send request => exact ih _ _
      | recv pipe => exact ih _ _
      | share f => exact ih _ _

/-! ## Programs that raise -/

/-- The commands in front of the first that raises. -/
def untilRaised : List (Option (Command σ ω ρ π)) → List (Command σ ω ρ π)
  | [] => []
  | none :: _ => []
  | some command :: program => command :: untilRaised program

theorem untilRaised_append (program : List (Command σ ω ρ π))
    (rest : List (Option (Command σ ω ρ π))) :
    untilRaised (program.map some ++ rest) = program ++ untilRaised rest := by
  induction program with
  | nil => rfl
  | cons command program ih => exact congrArg (command :: ·) ih

/-- A program without such a command is run as it is. -/
theorem untilRaised_map (program : List (Command σ ω ρ π)) :
    untilRaised (program.map some) = program := by
  have whole := untilRaised_append program []
  rwa [List.append_nil, untilRaised, List.append_nil] at whole

variable [DecidableEq π]

/-! ## Interleavings -/

/-- One step of the client or of the server. -/
inductive Step (service : Service ω ρ π) : System σ ω ρ π → System σ ω ρ π → Prop where
  | run {client program memory server} (f : σ → σ) :
      Step service ⟨client, .run f :: program, memory, server⟩
        ⟨f client, program, memory, server⟩
  | send {client program memory server} (request : σ → ρ) :
      Step service ⟨client, .send request :: program, memory, server⟩
        ⟨client, program, memory, { server with queue := server.queue ++ [request client] }⟩
  | recv {client program memory server} (pipe : π) (arrived : 0 < server.replies pipe) :
      Step service ⟨client, .recv pipe :: program, memory, server⟩
        ⟨client, program, memory,
          { server with
            replies := Function.update server.replies pipe (server.replies pipe - 1) }⟩
  | share {client program memory server} (f : σ → ω → σ × ω) :
      Step service ⟨client, .share f :: program, memory, server⟩
        ⟨(f client memory).1, program, (f client memory).2, server⟩
  | take {client program memory request queue replies} :
      Step service ⟨client, program, memory, ⟨request :: queue, none, replies⟩⟩
        ⟨client, program, memory,
          ⟨queue, some (service.handle request, service.reply request), replies⟩⟩
  | work {client program memory queue step steps pipe replies} :
      Step service ⟨client, program, memory, ⟨queue, some (step :: steps, pipe), replies⟩⟩
        ⟨client, program, step memory, ⟨queue, some (steps, pipe), replies⟩⟩
  | finish {client program memory queue pipe replies} :
      Step service ⟨client, program, memory, ⟨queue, some ([], pipe), replies⟩⟩
        ⟨client, program, memory,
          ⟨queue, none, Function.update replies pipe (replies pipe + 1)⟩⟩

/-- Any interleaving of steps. -/
def Steps (service : Service ω ρ π) : System σ ω ρ π → System σ ω ρ π → Prop :=
  Relation.ReflTransGen (Step service)

/-! ## Disciplined programs -/

/-- The program receives what it is owed on each pipe and touches the shared memory
only when nothing is outstanding; `left` is what it is owed in the end. -/
def Disciplined (service : Service ω ρ π) :
    (π → Nat) → List (Command σ ω ρ π) → (π → Nat) → Prop
  | owed, [], left => owed = left
  | owed, .run _ :: program, left => Disciplined service owed program left
  | owed, .send request :: program, left =>
      ∃ pipe, (∀ client, service.reply (request client) = pipe) ∧
        Disciplined service (Function.update owed pipe (owed pipe + 1)) program left
  | owed, .recv pipe :: program, left => 0 < owed pipe ∧
      Disciplined service (Function.update owed pipe (owed pipe - 1)) program left
  | owed, .share _ :: program, left =>
      (∀ pipe, owed pipe = 0) ∧ Disciplined service owed program left

/-- Disciplined programs one after the other. -/
theorem Disciplined.append {service : Service ω ρ π} {owed between left : π → Nat}
    {first second : List (Command σ ω ρ π)} (before : Disciplined service owed first between)
    (after : Disciplined service between second left) :
    Disciplined service owed (first ++ second) left := by
  induction first generalizing owed with
  | nil =>
      rw [Disciplined] at before
      rw [before]
      exact after
  | cons command first ih =>
      cases command with
      | run f => exact @ih owed before
      | send request =>
          obtain ⟨pipe, reply, rest⟩ := before
          exact ⟨pipe, reply, ih rest⟩
      | recv pipe => exact ⟨before.1, ih before.2⟩
      | share f => exact ⟨before.1, ih before.2⟩

/-- The replies that are owed on a pipe: those in it, and those of the requests that
are handled or wait. -/
def Server.owed (service : Service ω ρ π) (server : Server ω ρ π) (pipe : π) : Nat :=
  server.replies pipe + (server.busy.elim 0 fun job => if job.2 = pipe then 1 else 0) +
    (server.queue.map service.reply).count pipe

/-- The shared memory after everything that the server still has to do. -/
def Server.settle (service : Service ω ρ π) (server : Server ω ρ π) (memory : ω) : ω :=
  server.queue.foldl (fun memory request => runSteps (service.handle request) memory)
    (server.busy.elim memory fun job => runSteps job.1 memory)

/-- The outcome is that of the program alone, and the program is disciplined for what
is outstanding. -/
structure OnTrack (service : Service ω ρ π) (outcome : σ × ω) (system : System σ ω ρ π) :
    Prop where
  disciplined : Disciplined service (system.server.owed service) system.program fun _ => 0
  outcome : runSeq service system.program system.client
    (system.server.settle service system.memory) = outcome

variable {service : Service ω ρ π}

/-- A server to which nothing is outstanding is idle. -/
theorem Server.idle {server : Server ω ρ π} (none_ : ∀ pipe, server.owed service pipe = 0) :
    server = Server.quiet := by
  obtain ⟨queue, busy, replies⟩ := server
  have waiting : queue = [] := by
    cases queue with
    | nil => rfl
    | cons request queue =>
        have owed := none_ (service.reply request)
        simp [Server.owed] at owed
  have handled : busy = none := by
    cases busy with
    | none => rfl
    | some job =>
        have owed := none_ job.2
        simp [Server.owed] at owed
  subst waiting handled
  have empty : replies = fun _ => 0 := funext fun pipe => by simpa [Server.owed] using none_ pipe
  rw [Server.quiet, empty]

/-- A request that is sent is owed a reply. -/
theorem Server.owed_send (service : Service ω ρ π) (server : Server ω ρ π) (request : ρ) :
    Server.owed service { server with queue := server.queue ++ [request] } =
      Function.update (server.owed service) (service.reply request)
        (server.owed service (service.reply request) + 1) := by
  funext pipe
  by_cases own : pipe = service.reply request
  · subst own
    simp [Server.owed, Nat.add_assoc]
  · simp [Server.owed, own, Ne.symm own]

/-- A reply that is received is owed no longer. -/
theorem Server.owed_recv {server : Server ω ρ π} {pipe : π}
    (arrived : 0 < server.replies pipe) :
    Server.owed service { server with
        replies := Function.update server.replies pipe (server.replies pipe - 1) } =
      Function.update (server.owed service) pipe (server.owed service pipe - 1) := by
  funext other
  by_cases own : other = pipe
  · subst own
    simp only [Server.owed, Function.update_self]
    omega
  · simp [Server.owed, own]

/-- A request that is taken up is owed its reply as before. -/
theorem Server.owed_take (service : Service ω ρ π) (request : ρ) (queue : List ρ) (replies : π → Nat) :
    Server.owed service
        ⟨queue, some (service.handle request, service.reply request), replies⟩ =
      Server.owed service ⟨request :: queue, none, replies⟩ := by
  funext pipe
  simp only [Server.owed, Option.elim_some, Option.elim_none, List.map_cons, List.count_cons,
    beq_iff_eq]
  omega

/-- A reply that is sent is owed as before. -/
theorem Server.owed_finish (service : Service ω ρ π) (queue : List ρ) (pipe : π) (replies : π → Nat) :
    Server.owed service ⟨queue, none, Function.update replies pipe (replies pipe + 1)⟩ =
      Server.owed service ⟨queue, some ([], pipe), replies⟩ := by
  funext other
  by_cases own : other = pipe
  · subst own
    simp [Server.owed]
  · simp [Server.owed, own, Ne.symm own]

/-- Every step stays on track. -/
theorem OnTrack.step {outcome : σ × ω} {system next : System σ ω ρ π}
    (track : OnTrack service outcome system) (step : Step service system next) :
    OnTrack service outcome next := by
  obtain ⟨disciplined, ends⟩ := track
  cases step with
  | run f => exact ⟨disciplined, ends⟩
  | send request =>
      obtain ⟨pipe, reply, rest⟩ := disciplined
      refine ⟨?_, ?_⟩
      · rw [Server.owed_send, reply]
        exact rest
      · simpa [Server.settle, runSeq] using ends
  | recv pipe arrived =>
      refine ⟨?_, ends⟩
      rw [Server.owed_recv arrived]
      exact disciplined.2
  | share f =>
      obtain ⟨quiet, rest⟩ := disciplined
      refine ⟨rest, ?_⟩
      have idle := Server.idle quiet
      simp only at idle
      subst idle
      exact ends
  | take =>
      refine ⟨?_, ends⟩
      rw [Server.owed_take]
      exact disciplined
  | work => exact ⟨disciplined, ends⟩
  | finish =>
      refine ⟨?_, ends⟩
      rw [Server.owed_finish]
      exact disciplined

theorem OnTrack.steps {outcome : σ × ω} {system later : System σ ω ρ π}
    (track : OnTrack service outcome system) (steps : Steps service system later) :
    OnTrack service outcome later := by
  induction steps with
  | refl => exact track
  | tail _ step ih => exact ih.step step

/-- A system whose program is over has the outcome of the program alone. -/
theorem OnTrack.complete {outcome : σ × ω} {system : System σ ω ρ π}
    (track : OnTrack service outcome system) (ended : system.program = []) :
    system.client = outcome.1 ∧ system.memory = outcome.2 ∧ system.server = Server.quiet := by
  obtain ⟨client, program, memory, server⟩ := system
  obtain ⟨disciplined, ends⟩ := track
  simp only at ended
  subst ended
  have idle := Server.idle fun pipe => congrFun disciplined pipe
  simp only at idle
  subst idle
  exact ⟨congrArg Prod.fst ends, congrArg Prod.snd ends, rfl⟩

/-! ## Completion -/

/-- The server can finish a request. -/
theorem handles (service : Service ω ρ π) (client : σ) (program : List (Command σ ω ρ π))
    (memory : ω) (queue : List ρ) (steps : List (ω → ω)) (pipe : π) (replies : π → Nat) :
    Steps service ⟨client, program, memory, ⟨queue, some (steps, pipe), replies⟩⟩
      ⟨client, program, runSteps steps memory,
        ⟨queue, none, Function.update replies pipe (replies pipe + 1)⟩⟩ := by
  induction steps generalizing memory with
  | nil => exact Relation.ReflTransGen.single .finish
  | cons step steps ih => exact Relation.ReflTransGen.head .work (ih (step memory))

/-- The server can handle everything that waits. -/
theorem empties (service : Service ω ρ π) (client : σ) (program : List (Command σ ω ρ π))
    (memory : ω) (queue : List ρ) (replies : π → Nat) :
    Steps service ⟨client, program, memory, ⟨queue, none, replies⟩⟩
      ⟨client, program, Server.settle service ⟨queue, none, replies⟩ memory,
        ⟨[], none, Server.owed service ⟨queue, none, replies⟩⟩⟩ := by
  induction queue generalizing memory replies with
  | nil =>
      have same : Server.owed service ⟨[], none, replies⟩ = replies := by
        funext pipe
        simp [Server.owed]
      rw [same]
      exact Relation.ReflTransGen.refl
  | cons request queue ih =>
      have owed := Server.owed_take service request queue replies
      refine Relation.ReflTransGen.head .take ?_
      refine (handles service client program memory queue (service.handle request)
        (service.reply request) replies).trans ?_
      rw [← owed]
      have rest := ih (runSteps (service.handle request) memory)
        (Function.update replies (service.reply request) (replies (service.reply request) + 1))
      rw [Server.owed_finish] at rest
      exact rest

/-- A client whose requests are all handled can complete a disciplined program. -/
theorem completes_idle {program : List (Command σ ω ρ π)} {replies : π → Nat}
    (disciplined : Disciplined service replies program fun _ => 0) (client : σ) (memory : ω) :
    ∃ later, Steps service ⟨client, program, memory, ⟨[], none, replies⟩⟩ later ∧
      later.program = [] := by
  induction program generalizing replies client memory with
  | nil => exact ⟨_, Relation.ReflTransGen.refl, rfl⟩
  | cons command program ih =>
      cases command with
      | run f =>
          obtain ⟨later, steps, ended⟩ := ih disciplined (f client) memory
          exact ⟨later, Relation.ReflTransGen.head (.run f) steps, ended⟩
      | send request =>
          obtain ⟨pipe, reply, rest⟩ := disciplined
          have empty : Server.owed service ⟨[], none, replies⟩ = replies := by
            funext other
            simp [Server.owed]
          have owed := Server.owed_send service ⟨[], none, replies⟩ (request client)
          rw [empty, reply client] at owed
          rw [← owed] at rest
          obtain ⟨later, steps, ended⟩ := ih rest client
            (Server.settle service ⟨[request client], none, replies⟩ memory)
          refine ⟨later, Relation.ReflTransGen.head (.send request) ?_, ended⟩
          exact (empties service client program memory [request client] replies).trans steps
      | recv pipe =>
          obtain ⟨later, steps, ended⟩ := ih disciplined.2 client memory
          exact ⟨later, Relation.ReflTransGen.head (.recv pipe disciplined.1) steps, ended⟩
      | share f =>
          obtain ⟨later, steps, ended⟩ := ih disciplined.2 (f client memory).1 (f client memory).2
          exact ⟨later, Relation.ReflTransGen.head (.share f) steps, ended⟩

/-- Every system on track can complete its program. -/
theorem OnTrack.completes {outcome : σ × ω} {system : System σ ω ρ π}
    (track : OnTrack service outcome system) :
    ∃ later, Steps service system later ∧ later.program = [] := by
  obtain ⟨client, program, memory, ⟨queue, busy, replies⟩⟩ := system
  have disciplined := track.disciplined
  cases busy with
  | none =>
      obtain ⟨later, steps, ended⟩ := completes_idle disciplined client
        (Server.settle service ⟨queue, none, replies⟩ memory)
      exact ⟨later, (empties service client program memory queue replies).trans steps, ended⟩
  | some job =>
      obtain ⟨remaining, pipe⟩ := job
      have handled : Disciplined service (Server.owed service
          ⟨queue, none, Function.update replies pipe (replies pipe + 1)⟩) program
          fun _ => 0 := by
        rw [Server.owed_finish]
        exact disciplined
      obtain ⟨later, steps, ended⟩ := completes_idle handled client
        (Server.settle service ⟨queue, none, Function.update replies pipe (replies pipe + 1)⟩
          (runSteps remaining memory))
      refine ⟨later, ?_, ended⟩
      refine (handles service client program memory queue remaining pipe replies).trans ?_
      exact (empties service client program _ queue _).trans steps

/-- The outcome of a disciplined program does not depend on the interleaving. -/
theorem steps_outcome {program : List (Command σ ω ρ π)}
    (disciplined : Disciplined service (fun _ => 0) program fun _ => 0) (client : σ) (memory : ω)
    {later : System σ ω ρ π} (steps : Steps service ⟨client, program, memory, .quiet⟩ later) :
    (∃ last, Steps service later last ∧ last.program = []) ∧
      (later.program = [] → later.client = (runSeq service program client memory).1 ∧
        later.memory = (runSeq service program client memory).2 ∧ later.server = .quiet) := by
  have quiet : Server.owed service Server.quiet = fun _ => 0 := by
    funext pipe
    simp [Server.owed, Server.quiet]
  have start : OnTrack service (runSeq service program client memory)
      ⟨client, program, memory, .quiet⟩ := by
    refine ⟨?_, rfl⟩
    rw [quiet]
    exact disciplined
  have track := start.steps steps
  exact ⟨track.completes, track.complete⟩

end Dolphin.Semantics
