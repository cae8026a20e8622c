import Dolphin.Buffer.Extensions

/-!
# When the handshake is safe

If the maps of every prefetched block fit, one request is outstanding at most and the
reply that is taken is its result. If the maps of a block do not fit, its data never
reaches the shared tensors, and the main process goes on without it. Without edge
features no block is prefetched where the maps are taken to the host first.
-/

namespace Dolphin.Buffer.Extensions

open Dolphin.Semantics

namespace Exchange

variable (exchange : Exchange)

/-- A later block is asked for before the main process can fail on the edge map. -/
def Prefetches : Prop :=
  exchange.hasEdgeFeat = true ∨ exchange.useAsync = true ∧ exchange.transferCpu = false

/-- The maps of a block fit the shared tensors, and the map before it, whose length its
mask has. -/
structure Fits (block : Nat) : Prop where
  node : exchange.NodeFits block
  edge : exchange.EdgeFits block
  mask : exchange.useMemory = true → exchange.nodeLen (block - 1) ≤ exchange.nodeRoom

/-! ## Programs that take what they asked for -/

/-- The main process between two operations: the request that is outstanding, and the
blocks of the shared tensors, of `part_node_map` and of `part_memory`. -/
structure Place where
  pending : Option Request
  ready : Nat
  map : Option Nat
  memory : Option Nat

/-- From a place to another one: a request is sent when none is outstanding, its answer is
received on the right pipe, and a block is read when it is the one in the tensors and
follows the one in the buffer. -/
inductive Orderly (last : Place) : Place → List MainOp → Prop where
  | nil : Orderly last last []
  | call {function name ready map memory program}
      (rest : Orderly last ⟨some (.call function name), ready, map, memory⟩ program) :
      Orderly last ⟨none, ready, map, memory⟩ (.call function name :: program)
  | recvConn {function name ready map memory program}
      (rest : Orderly last ⟨none, ready, map, memory⟩ program) :
      Orderly last ⟨some (.call function name), ready, map, memory⟩ (.recvConn :: program)
  | analyze {ready map memory program}
      (rest : Orderly last ⟨none, ready, some 0, some 0⟩ program) :
      Orderly last ⟨none, ready, map, memory⟩ (.analyze :: program)
  | partEdgeMapCpu {ready map memory program}
      (needed : exchange.useAsync = true → exchange.transferCpu = true)
      (rest : exchange.hasEdgeFeat = true → Orderly last ⟨none, ready, map, memory⟩ program) :
      Orderly last ⟨none, ready, map, memory⟩ (.partEdgeMapCpu :: program)
  | preFetch {block ready memory program} (prefetches : exchange.Prefetches)
      (own : block + 1 < exchange.blocks)
      (rest : Orderly last
        ⟨some (.preFetch (block + 1) (exchange.nodeLen block)), ready, some block, memory⟩
        program) :
      Orderly last ⟨none, ready, some block, memory⟩ (.preFetch (block + 1) :: program)
  | recvOnly {block mapLen ready map memory program}
      (rest : Orderly last ⟨none, block, map, memory⟩ program) :
      Orderly last ⟨some (.preFetch block mapLen), ready, map, memory⟩ (.recvOnly block :: program)
  | read {block tensor map memory program} (positive : 0 < block)
      (rest : Orderly last
        ⟨none, block, if tensor = .partNodeMap then some block else map, memory⟩ program) :
      Orderly last ⟨none, block, map, memory⟩ (.read block tensor :: program)
  | mergeMemory {block map program} (useMemory : exchange.useMemory = true)
      (rest : Orderly last ⟨none, block + 1, map, some (block + 1)⟩ program) :
      Orderly last ⟨none, block + 1, map, some block⟩ (.mergeMemory (block + 1) :: program)
  | train {pending ready block memory program}
      (rest : Orderly last ⟨pending, ready, some block, memory⟩ program) :
      Orderly last ⟨pending, ready, some block, memory⟩ (.train block :: program)

variable {exchange}

theorem Orderly.append {first middle last : Place} {early late : List MainOp}
    (before : exchange.Orderly middle first early) (after : exchange.Orderly last middle late) :
    exchange.Orderly last first (early ++ late) := by
  induction before with
  | nil => exact after
  | call _ ih => exact .call ih
  | recvConn _ ih => exact .recvConn ih
  | analyze _ ih => exact .analyze ih
  | partEdgeMapCpu needed _ ih => exact .partEdgeMapCpu needed ih
  | preFetch prefetches own _ ih => exact .preFetch prefetches own ih
  | recvOnly _ ih => exact .recvOnly ih
  | read positive _ ih => exact .read positive ih
  | mergeMemory useMemory _ ih => exact .mergeMemory useMemory ih
  | train _ ih => exact .train ih

theorem orderly_roundTrips (calls : List (String × String)) {place : Place}
    (quiet : place.pending = none) : exchange.Orderly place place (roundTrips calls) := by
  obtain ⟨pending, ready, map, memory⟩ := place
  obtain rfl : pending = none := quiet
  induction calls with
  | nil => exact .nil
  | cons call calls ih => exact .call (.recvConn ih)

/-- Reads of a block; the map is among them or not. -/
theorem orderly_reads (exchange : Exchange) {block : Nat} (positive : 0 < block)
    (tensors : List SharedTensor) (map memory : Option Nat) :
    exchange.Orderly
      ⟨none, block, if .partNodeMap ∈ tensors then some block else map, memory⟩
      ⟨none, block, map, memory⟩ (tensors.map (.read block)) := by
  induction tensors generalizing map with
  | nil => exact .nil
  | cons tensor tensors ih =>
      refine .read positive ?_
      have rest := ih (if tensor = .partNodeMap then some block else map)
      by_cases own : tensor = .partNodeMap
      · simpa [own] using rest
      · simpa [own, Ne.symm own] using rest

/-- What is outstanding before a block begins. -/
def pendingAt (exchange : Exchange) (block : Nat) : Option Request :=
  if exchange.useAsync ∧ 0 < block ∧ block < exchange.blocks then
    some (.preFetch block (exchange.nodeLen (block - 1)))
  else none

/-- The block whose rows are in `part_memory` with a block in the buffer. -/
def memoryAt (exchange : Exchange) (block : Nat) : Nat := if exchange.useMemory then block else 0

/-- A block is in the buffer. -/
def loadedAt (exchange : Exchange) (block : Nat) : Place :=
  ⟨none, block, some block, some (exchange.memoryAt block)⟩

/-- The place before a block begins. -/
def placeAt (exchange : Exchange) : Nat → Place
  | 0 => ⟨none, 0, none, none⟩
  | block + 1 => { exchange.loadedAt block with pending := exchange.pendingAt (block + 1) }

/-- The first block is loaded. -/
theorem orderly_first : exchange.Orderly (exchange.loadedAt 0) (exchange.placeAt 0)
    (exchange.loadOps 0) := by
  have memory : exchange.memoryAt 0 = 0 := ite_self 0
  rw [loadOps, if_pos rfl, loadedAt, memory]
  exact (orderly_roundTrips _ rfl).append (.analyze .nil)

/-- A later block is loaded when it is in the shared tensors. -/
theorem orderly_prefetchAfter (block : Nat) :
    exchange.Orderly (exchange.loadedAt (block + 1))
      ⟨none, block + 1, some block, some (exchange.memoryAt block)⟩
      (exchange.prefetchAfterOps (block + 1)) := by
  have reads := exchange.orderly_reads (Nat.succ_pos block) exchange.readBack (some block)
    (some (exchange.memoryAt block))
  rw [if_pos (by simp [readBack])] at reads
  refine reads.append ?_
  rw [loadedAt, memoryAt, memoryAt]
  cases useMemory : exchange.useMemory with
  | true => exact .mergeMemory useMemory .nil
  | false => exact .nil

theorem orderly_later {block : Nat} (own : block + 1 < exchange.blocks) :
    exchange.Orderly (exchange.loadedAt (block + 1)) (exchange.placeAt (block + 1))
      (exchange.loadOps (block + 1)) := by
  rw [loadOps, if_neg (Nat.succ_ne_zero block), placeAt, pendingAt]
  cases async : exchange.useAsync with
  | true =>
      rw [if_pos rfl, if_pos ⟨rfl, Nat.succ_pos block, own⟩]
      exact .recvOnly (orderly_prefetchAfter block)
  | false =>
      rw [if_neg Bool.false_ne_true, if_neg fun ahead => Bool.false_ne_true ahead.1]
      refine .partEdgeMapCpu (fun ahead => absurd (async.symm.trans ahead) Bool.false_ne_true) ?_
      exact fun ef => .preFetch (.inl ef) own (.recvOnly (orderly_prefetchAfter block))

/-- The request for the next block. -/
theorem orderly_request (block : Nat) :
    exchange.Orderly (exchange.placeAt (block + 1)) (exchange.loadedAt block)
      (exchange.requestOps block) := by
  rw [placeAt, pendingAt, requestOps]
  by_cases ahead : exchange.useAsync ∧ block + 1 < exchange.blocks
  · rw [if_pos ahead, if_pos ⟨ahead.1, Nat.succ_pos block, ahead.2⟩]
    cases transfer : exchange.transferCpu with
    | true =>
        exact .partEdgeMapCpu (fun _ => transfer) fun ef => .preFetch (.inl ef) ahead.2 .nil
    | false => exact .preFetch (.inr ⟨ahead.1, transfer⟩) ahead.2 .nil
  · rw [if_neg ahead, if_neg fun later => ahead ⟨later.1, later.2.2⟩]
    exact .nil

/-- One block of the main process: the reply that is taken is its own. -/
theorem orderly_block {block : Nat} (own : block < exchange.blocks) :
    exchange.Orderly (exchange.placeAt (block + 1)) (exchange.placeAt block)
      (exchange.blockOps block) := by
  have load : exchange.Orderly (exchange.loadedAt block) (exchange.placeAt block)
      (exchange.loadOps block) := by
    cases block with
    | zero => exact orderly_first
    | succ block => exact orderly_later own
  exact (load.append (orderly_request block)).append (.train .nil)

/-- The whole epoch. -/
theorem orderly_program (exchange : Exchange) :
    ∃ last : Place, last.pending = none ∧
      exchange.Orderly last (exchange.placeAt 0) exchange.program := by
  have blocks : ∀ count, count ≤ exchange.blocks →
      exchange.Orderly (exchange.placeAt count) (exchange.placeAt 0)
        ((List.range count).flatMap exchange.blockOps) := by
    intro count
    induction count with
    | zero => exact fun _ => .nil
    | succ count ih =>
        intro bound
        rw [List.range_succ, List.flatMap_append, List.flatMap_singleton]
        exact (ih (Nat.le_of_succ_le bound)).append (orderly_block bound)
  have quiet : (exchange.placeAt exchange.blocks).pending = none := by
    cases count : exchange.blocks with
    | zero => rfl
    | succ block =>
        have ended : ¬(exchange.useAsync ∧ 0 < block + 1 ∧ block + 1 < exchange.blocks) :=
          fun ahead => absurd (count ▸ ahead.2.2) (Nat.lt_irrefl _)
        exact if_neg ended
  exact ⟨_, quiet, (blocks _ (Nat.le_refl _)).append (orderly_roundTrips _ quiet)⟩

/-! ## Serving one request -/

variable (exchange) in
/-- The tensors have a block. -/
structure Copied (block : Nat) (tensors : Tensors) : Prop where
  written : ∀ tensor ∈ exchange.written, tensors.block tensor = block
  retLen : tensors.retLen = exchange.lengths block (exchange.nodeLen (block - 1))
  fits : exchange.Fits block

variable (exchange) in
/-- Where an outstanding request is, and which block the tensors have. -/
inductive Serving (ready : Nat) : Option Request → Pipes → Tensors → Prop where
  | idle {tensors} (held : 0 < ready → exchange.Copied ready tensors) :
      Serving ready none ⟨[], 0, [], 0, .poll⟩ tensors
  | queued {request tensors} (held : 0 < ready → exchange.Copied ready tensors) :
      Serving ready (some request) ⟨[request], 0, [], 0, .poll⟩ tensors
  | call {function name tensors} (held : 0 < ready → exchange.Copied ready tensors) :
      Serving ready (some (.call function name)) ⟨[], 0, [], 0, .call⟩ tensors
  | answered {function name tensors} (held : 0 < ready → exchange.Copied ready tensors) :
      Serving ready (some (.call function name)) ⟨[], 1, [], 0, .poll⟩ tensors
  | nodeCheck {block mapLen tensors} :
      Serving ready (some (.preFetch block mapLen))
        ⟨[], 0, [], 0, .preFetch block mapLen .nodeCheck⟩ tensors
  | nodeAck {block mapLen tensors} (long : ¬exchange.NodeFits block) :
      Serving ready (some (.preFetch block mapLen))
        ⟨[], 0, [.nodeExtension block], 0, .preFetch block mapLen .nodeAck⟩ tensors
  | edgeCheck {block mapLen tensors} (fits : exchange.NodeFits block) :
      Serving ready (some (.preFetch block mapLen))
        ⟨[], 0, [], 0, .preFetch block mapLen .edgeCheck⟩ tensors
  | edgeAck {block mapLen tensors} (long : ¬exchange.EdgeFits block) :
      Serving ready (some (.preFetch block mapLen))
        ⟨[], 0, [.edgeExtension block], 0, .preFetch block mapLen .edgeAck⟩ tensors
  | write {block mapLen done left tensors} (node : exchange.NodeFits block)
      (edge : exchange.EdgeFits block) (split : exchange.written = done ++ left)
      (copied : ∀ tensor ∈ done, tensors.block tensor = block)
      (retLen : .sharedRetLen ∈ done → tensors.retLen = exchange.lengths block mapLen)
      (mask : .preSameNodes ∈ done → mapLen ≤ exchange.nodeRoom) :
      Serving ready (some (.preFetch block mapLen))
        ⟨[], 0, [], 0, .preFetch block mapLen (.write left)⟩ tensors
  | stopped {block mapLen tensors} (useMemory : exchange.useMemory = true)
      (long : ¬mapLen ≤ exchange.nodeRoom) :
      Serving ready (some (.preFetch block mapLen)) ⟨[], 0, [], 0, .stopped⟩ tensors
  | replied {block mapLen tensors} (copied : exchange.Copied block tensors) :
      Serving ready (some (.preFetch block mapLen)) ⟨[], 0, [.result block], 0, .poll⟩ tensors

variable (exchange) in
/-- What is outstanding is the request for a block of the epoch, with the map before it. -/
def Asked (pending : Option Request) : Prop :=
  ∀ block mapLen, pending = some (.preFetch block mapLen) →
    exchange.Prefetches ∧ 0 < block ∧ block < exchange.blocks ∧
      mapLen = exchange.nodeLen (block - 1)

variable (exchange) in
/-- The buffer has the lengths of its blocks. -/
structure Buffered (place : Place) (state : Processes) : Prop where
  map : ∀ block, place.map = some block → state.nodeMap = exchange.nodeLen block
  memory : exchange.useMemory = true → ∀ block, place.memory = some block →
    state.partMemory = exchange.nodeLen block

variable (exchange) in
/-- The main process takes what it asked for. -/
structure OnTrack (state : Processes) : Prop where
  serving : ∃ place last : Place, last.pending = none ∧
    exchange.Orderly last place state.program ∧
    exchange.Serving place.ready place.pending state.pipes state.tensors ∧
    exchange.Buffered place state ∧ exchange.Asked place.pending
  received : ∀ block reply, (block, reply) ∈ state.received → reply = .result block
  raised : state.raised = true → ¬exchange.Prefetches

variable (exchange) in
/-- A message about a map that is too long was taken as a reply. -/
structure Broken (state : Processes) : Prop where
  prefetches : exchange.Prefetches
  taken : ∃ block reply, (block, reply) ∈ state.received ∧ reply ≠ .result block
  long : ∃ block, 0 < block ∧ block < exchange.blocks ∧ ¬exchange.Fits block

theorem Asked.none : exchange.Asked none := nofun

theorem Asked.call {function name : String} : exchange.Asked (some (.call function name)) :=
  nofun

variable {state next : Processes}

theorem onTrack_initial (exchange : Exchange) : exchange.OnTrack exchange.initial where
  serving := by
    obtain ⟨last, quiet, orderly⟩ := exchange.orderly_program
    exact ⟨_, last, quiet, orderly, .idle nofun, ⟨nofun, fun _ => nofun⟩, .none⟩
  received := nofun
  raised := nofun

/-- The main process stays on track, unless it takes a message as the reply. -/
theorem OnTrack.mainStep (track : exchange.OnTrack state)
    (move : exchange.mainStep state = some next) :
    exchange.OnTrack next ∨ exchange.Broken next := by
  obtain ⟨⟨place, last, quiet, orderly, serving, ⟨map, memory⟩, asked⟩, received, raised⟩ := track
  obtain ⟨program, nodeMap, partMemory, taken, hasRaised, pipes, tensors⟩ := state
  cases orderly with
  | nil => cases move
  | call rest =>
      obtain rfl := Option.some.inj move
      cases serving with
      | idle held =>
          exact .inl ⟨⟨_, _, quiet, rest, .queued held, ⟨map, memory⟩, .call⟩, received, raised⟩
  | recvConn rest =>
      cases serving with
      | queued held => cases move
      | call held => cases move
      | answered held =>
          obtain rfl := Option.some.inj move
          exact .inl ⟨⟨_, _, quiet, rest, .idle held, ⟨map, memory⟩, .none⟩, received, raised⟩
  | analyze rest =>
      obtain rfl := Option.some.inj move
      refine .inl ⟨⟨_, _, quiet, rest, serving, ⟨?_, ?_⟩, asked⟩, received, raised⟩
      · rintro block ⟨⟩
        rfl
      · rintro - block ⟨⟩
        rfl
  | partEdgeMapCpu needed rest =>
      by_cases ef : exchange.hasEdgeFeat = true
      · simp only [Exchange.mainStep, if_pos ef, Option.some.injEq] at move
        subst move
        exact .inl ⟨⟨_, _, quiet, rest ef, serving, ⟨map, memory⟩, asked⟩, received, raised⟩
      · simp only [Exchange.mainStep, if_neg ef, Option.some.injEq] at move
        subst move
        refine .inl ⟨⟨_, _, rfl, .nil, serving, ⟨map, memory⟩, asked⟩, received, fun _ => ?_⟩
        rintro (has | ⟨async, single⟩)
        · exact ef has
        · exact absurd ((needed async).symm.trans single) Bool.noConfusion
  | @preFetch block _ _ _ prefetches own rest =>
      obtain rfl := Option.some.inj move
      cases serving with
      | idle held =>
          have sent : nodeMap = exchange.nodeLen block := map block rfl
          subst sent
          refine .inl ⟨⟨_, _, quiet, rest, .queued held, ⟨map, memory⟩, ?_⟩, received, raised⟩
          rintro _ _ ⟨⟩
          exact ⟨prefetches, Nat.succ_pos block, own, rfl⟩
  | @recvOnly block mapLen _ _ _ _ rest =>
      obtain ⟨prefetches, positive, own, -⟩ := asked block mapLen rfl
      -- A message is taken like a result.
      have broken : ∀ reply, reply ≠ .result block → ¬exchange.Fits block →
          ∀ later : Processes, later.received = taken ++ [(block, reply)] →
            exchange.Broken later := by
        intro reply other long later took
        refine ⟨prefetches, ⟨block, reply, ?_, other⟩, block, positive, own, long⟩
        rw [took]
        exact List.mem_append_right _ (List.mem_singleton_self _)
      cases serving with
      | queued held => cases move
      | nodeCheck => cases move
      | edgeCheck fits => cases move
      | write node edge split copied retLen mask => cases move
      | stopped useMemory long => cases move
      | nodeAck long =>
          obtain rfl := Option.some.inj move
          exact .inr (broken (.nodeExtension block) nofun (fun fits => long fits.node) _ rfl)
      | edgeAck long =>
          obtain rfl := Option.some.inj move
          exact .inr (broken (.edgeExtension block) nofun (fun fits => long fits.edge) _ rfl)
      | replied copied =>
          obtain rfl := Option.some.inj move
          refine .inl ⟨⟨_, _, quiet, rest, .idle fun _ => copied, ⟨map, memory⟩, .none⟩, ?_, raised⟩
          intro other reply member
          rcases List.mem_append.mp member with old | new
          · exact received other reply old
          · obtain ⟨rfl, rfl⟩ := Prod.mk.inj (List.mem_singleton.mp new)
            rfl
  | @read block tensor _ _ _ positive rest =>
      obtain rfl := Option.some.inj move
      cases serving with
      | idle held =>
          refine .inl ⟨⟨_, _, quiet, rest, .idle held, ⟨?_, memory⟩, .none⟩, received, raised⟩
          intro other loaded
          by_cases own : tensor = .partNodeMap
          · simp only [own, if_true, Option.some.injEq] at loaded ⊢
            rw [(held positive).retLen, ← loaded, lengths]
            split <;> rfl
          · simp only [own, if_false] at loaded ⊢
            exact map other loaded
  | @mergeMemory block _ _ useMemory rest =>
      cases serving with
      | idle held =>
          have retLen := (held (Nat.succ_pos block)).retLen
          rw [lengths, if_pos useMemory, Nat.add_sub_cancel] at retLen
          have rows : partMemory = exchange.nodeLen block := memory useMemory block rfl
          have fits : tensors.retLen.preSame = partMemory ∧
              tensors.retLen.curSame = tensors.retLen.node := by
            rw [retLen, rows]
            exact ⟨rfl, rfl⟩
          simp only [Exchange.mainStep, if_pos fits, Option.some.injEq] at move
          subst move
          refine .inl ⟨⟨_, _, quiet, rest, .idle held, ⟨map, ?_⟩, .none⟩, received, raised⟩
          rintro - other ⟨⟩
          exact congrArg RetLen.node retLen
  | @train _ _ block _ _ rest =>
      have rows : nodeMap = exchange.nodeLen block := map block rfl
      have some_ : nodeMap ≠ 0 := rows ▸ Nat.ne_of_gt (exchange.populated block)
      simp only [Exchange.mainStep, if_neg some_, Option.some.injEq] at move
      subst move
      exact .inl ⟨⟨_, _, quiet, rest, serving, ⟨map, memory⟩, asked⟩, received, raised⟩

/-- The worker keeps the main process on track. -/
theorem OnTrack.workerStep (track : exchange.OnTrack state)
    (move : exchange.workerStep state = some next) : exchange.OnTrack next := by
  obtain ⟨⟨place, last, quiet, orderly, serving, ⟨map, memory⟩, asked⟩, received, raised⟩ := track
  obtain ⟨program, nodeMap, partMemory, taken, hasRaised, pipes, tensors⟩ := state
  obtain ⟨pending, ready, own, rows⟩ := place
  -- Only the pipes and the tensors change.
  have kept : ∀ pipes tensors, exchange.Serving ready pending pipes tensors →
      exchange.OnTrack ⟨program, nodeMap, partMemory, taken, hasRaised, pipes, tensors⟩ :=
    fun _ _ served => ⟨⟨_, _, quiet, orderly, served, ⟨map, memory⟩, asked⟩, received, raised⟩
  cases serving with
  | idle held => cases move
  | @queued request _ held =>
      cases request with
      | call function name =>
          obtain rfl := Option.some.inj move
          exact kept _ _ (.call held)
      | preFetch block mapLen =>
          obtain rfl := Option.some.inj move
          exact kept _ _ .nodeCheck
  | call held =>
      obtain rfl := Option.some.inj move
      exact kept _ _ (.answered held)
  | answered held => cases move
  | @nodeCheck block mapLen =>
      by_cases fits : exchange.NodeFits block
      · simp only [Exchange.workerStep, if_pos fits, Option.some.injEq] at move
        subst move
        exact kept _ _ (.edgeCheck fits)
      · simp only [Exchange.workerStep, if_neg fits, Option.some.injEq] at move
        subst move
        exact kept _ _ (.nodeAck fits)
  | nodeAck long => cases move
  | @edgeCheck block mapLen _ node =>
      by_cases fits : exchange.EdgeFits block
      · simp only [Exchange.workerStep, if_pos fits, Option.some.injEq] at move
        subst move
        exact kept _ _ (.write node fits (List.nil_append _).symm nofun nofun nofun)
      · simp only [Exchange.workerStep, if_neg fits, Option.some.injEq] at move
        subst move
        exact kept _ _ (.edgeAck fits)
  | edgeAck long => cases move
  | @write block mapLen done left _ node edge split copied retLen mask =>
      cases left with
      | nil =>
          obtain rfl := Option.some.inj move
          rw [List.append_nil] at split
          subst split
          obtain ⟨-, -, -, rfl⟩ := asked block mapLen rfl
          refine kept _ _ (.replied ⟨copied, retLen (by simp [written]), node, edge, ?_⟩)
          exact fun useMemory => mask (by simp [written, useMemory])
      | cons tensor left =>
          have next := split
          rw [← List.singleton_append, ← List.append_assoc] at next
          by_cases writable : exchange.Writable block mapLen tensor
          · simp only [Exchange.workerStep, if_pos writable, Option.some.injEq] at move
            subst move
            refine kept _ _ (.write node edge next ?_ ?_ ?_)
            · intro other member
              by_cases own : other = tensor
              · subst own
                exact Function.update_self _ _ _
              · have old : other ∈ done := by simpa [own] using member
                exact (Function.update_of_ne own _ _).trans (copied other old)
            · intro member
              by_cases own : tensor = .sharedRetLen
              · exact if_pos own
              · have old : .sharedRetLen ∈ done := by simpa [Ne.symm own] using member
                exact (if_neg own).trans (retLen old)
            · intro member
              by_cases own : tensor = .preSameNodes
              · exact writable.2.2 own
              · exact mask (by simpa [Ne.symm own] using member)
          · simp only [Exchange.workerStep, if_neg writable, Option.some.injEq] at move
            subst move
            have mask : ¬(tensor = .preSameNodes → mapLen ≤ exchange.nodeRoom) :=
              fun room => writable ⟨node, edge, room⟩
            obtain ⟨own, long⟩ := Classical.not_imp.mp mask
            have member : tensor ∈ exchange.written := by simp [split]
            have useMemory : exchange.useMemory = true := by
              by_contra unused
              simp [own, written, unused] at member
            exact kept _ _ (.stopped useMemory long)
  | stopped useMemory long => cases move
  | replied copied => cases move

/-- The main process waits only for a message. -/
theorem mainStep_waits (waits : exchange.mainStep state = none) :
    state.program = [] ∨
      (∃ rest, state.program = .recvConn :: rest ∧ state.pipes.results = 0) ∨
      ∃ block rest, state.program = .recvOnly block :: rest ∧ state.pipes.replies = [] := by
  obtain ⟨program, nodeMap, partMemory, taken, hasRaised, ⟨requests, results, replies, acks, work⟩,
    tensors⟩ := state
  cases program with
  | nil => exact .inl rfl
  | cons op program =>
      cases op with
      | call function name | analyze | preFetch block | read block tensor => cases waits
      | partEdgeMapCpu | mergeMemory block | train block =>
          simp only [Exchange.mainStep] at waits
          split at waits <;> cases waits
      | recvConn =>
          cases results with
          | zero => exact .inr (.inl ⟨_, rfl, rfl⟩)
          | succ results => cases waits
      | recvOnly block =>
          cases replies with
          | nil => exact .inr (.inr ⟨_, _, rfl, rfl⟩)
          | cons reply replies => cases waits

/-- A block that is read is in the tensors. -/
theorem OnTrack.copied (track : exchange.OnTrack state) {block : Nat} {tensor : SharedTensor}
    {rest : List MainOp} (reads : state.program = .read block tensor :: rest) :
    exchange.Copied block state.tensors := by
  obtain ⟨⟨place, last, quiet, orderly, serving, -⟩, -⟩ := track
  obtain ⟨program, nodeMap, partMemory, taken, hasRaised, pipes, tensors⟩ := state
  subst reads
  cases orderly with
  | read positive later =>
      cases serving with
      | idle held => exact held positive

/-- What is outstanding can be served, and what is served can be taken; only a mask
without room stops the worker. -/
theorem OnTrack.safe (track : exchange.OnTrack state)
    (fits : exchange.Prefetches → ∀ block, 0 < block → block < exchange.blocks →
      exchange.Fits block) : exchange.Safe state := by
  refine ⟨track.received, fun block tensor rest reads => (track.copied reads).written, ?_⟩
  · obtain ⟨⟨place, last, quiet, orderly, serving, -, asked⟩, -⟩ := track
    obtain ⟨program, nodeMap, partMemory, taken, hasRaised, pipes, tensors⟩ := state
    rintro ⟨main, worker⟩
    replace worker : exchange.workerStep _ = none := worker
    obtain ended | ⟨rest, rfl, empty⟩ | ⟨block, rest, rfl, empty⟩ := mainStep_waits main
    · exact ended
    · cases orderly with
      | recvConn later =>
          cases serving with
          | queued held => cases worker
          | call held => cases worker
          | answered held => cases empty
    · cases orderly with
      | recvOnly later =>
          cases serving with
          | queued held => cases worker
          | nodeCheck | edgeCheck node =>
              simp only [Exchange.workerStep] at worker
              split at worker <;> cases worker
          | @write _ _ done left _ node edge split copied retLen mask =>
              cases left with
              | nil => cases worker
              | cons tensor left =>
                  simp only [Exchange.workerStep] at worker
                  split at worker <;> cases worker
          | nodeAck long | edgeAck long | replied copied => cases empty
          | stopped useMemory long =>
              obtain ⟨prefetches, positive, own, rfl⟩ := asked _ _ rfl
              exact absurd ((fits prefetches _ positive own).mask useMemory) long

/-! ## Runs -/

variable (exchange) in
/-- The steps that a stage has left at most. -/
def stageCost : Stage → Nat
  | .nodeCheck => exchange.written.length + 5
  | .nodeAck => exchange.written.length + 4
  | .edgeCheck => exchange.written.length + 3
  | .edgeAck => exchange.written.length + 2
  | .write left => left.length + 1

variable (exchange) in
/-- The steps that the worker has left at most for what it does. -/
def workCost : Work → Nat
  | .poll => 0
  | .call => 1
  | .preFetch _ _ stage => exchange.stageCost stage
  | .stopped => 0

variable (exchange) in
/-- The steps that a run has left at most. -/
def remaining (state : Processes) : Nat :=
  (exchange.written.length + 7) * state.program.length +
    ((exchange.written.length + 6) * state.pipes.requests.length +
      exchange.workCost state.pipes.work)

/-- The main process goes on to its next operation or raises, and leaves the worker
alone. -/
theorem mainStep_frame (move : exchange.mainStep state = some next) :
    (∃ op rest, state.program = op :: rest ∧
      (next.program = rest ∧ next.raised = state.raised ∨
        next.program = [] ∧ next.raised = true)) ∧
      next.pipes.requests.length ≤ state.pipes.requests.length + 1 ∧
      next.pipes.work = state.pipes.work ∧ state.received ⊆ next.received := by
  obtain ⟨program, nodeMap, partMemory, taken, hasRaised, ⟨requests, results, replies, acks, work⟩,
    tensors⟩ := state
  cases program with
  | nil => cases move
  | cons op program =>
      cases op with
      | call function name | preFetch block =>
          obtain rfl := Option.some.inj move
          exact ⟨⟨_, _, rfl, .inl ⟨rfl, rfl⟩⟩, Nat.le_of_eq List.length_append, rfl,
            List.Subset.refl _⟩
      | analyze | read block tensor =>
          obtain rfl := Option.some.inj move
          exact ⟨⟨_, _, rfl, .inl ⟨rfl, rfl⟩⟩, Nat.le_succ _, rfl, List.Subset.refl _⟩
      | partEdgeMapCpu | mergeMemory block =>
          simp only [Exchange.mainStep] at move
          split at move
          case isTrue =>
              obtain rfl := Option.some.inj move
              exact ⟨⟨_, _, rfl, .inl ⟨rfl, rfl⟩⟩, Nat.le_succ _, rfl, List.Subset.refl _⟩
          case isFalse =>
              obtain rfl := Option.some.inj move
              exact ⟨⟨_, _, rfl, .inr ⟨rfl, rfl⟩⟩, Nat.le_succ _, rfl, List.Subset.refl _⟩
      | train block =>
          simp only [Exchange.mainStep] at move
          split at move
          case isTrue =>
              obtain rfl := Option.some.inj move
              exact ⟨⟨_, _, rfl, .inr ⟨rfl, rfl⟩⟩, Nat.le_succ _, rfl, List.Subset.refl _⟩
          case isFalse =>
              obtain rfl := Option.some.inj move
              exact ⟨⟨_, _, rfl, .inl ⟨rfl, rfl⟩⟩, Nat.le_succ _, rfl, List.Subset.refl _⟩
      | recvConn =>
          cases results with
          | zero => cases move
          | succ results =>
              obtain rfl := Option.some.inj move
              exact ⟨⟨_, _, rfl, .inl ⟨rfl, rfl⟩⟩, Nat.le_succ _, rfl, List.Subset.refl _⟩
      | recvOnly block =>
          cases replies with
          | nil => cases move
          | cons reply replies =>
              obtain rfl := Option.some.inj move
              exact ⟨⟨_, _, rfl, .inl ⟨rfl, rfl⟩⟩, Nat.le_succ _, rfl,
                List.subset_append_left _ _⟩

theorem remaining_mainStep (move : exchange.mainStep state = some next) :
    exchange.remaining next < exchange.remaining state := by
  obtain ⟨⟨op, rest, program, after⟩, requests, work, -⟩ := mainStep_frame move
  have sent : (exchange.written.length + 6) * next.pipes.requests.length ≤
      (exchange.written.length + 6) * state.pipes.requests.length +
        (exchange.written.length + 6) :=
    Nat.mul_le_mul_left _ requests
  have shorter : (exchange.written.length + 7) * next.program.length ≤
      (exchange.written.length + 7) * rest.length := by
    rcases after with ⟨same, -⟩ | ⟨ended, -⟩
    · exact same ▸ Nat.le_refl _
    · rw [ended]
      exact Nat.zero_le _
  rw [remaining, remaining, program, List.length_cons, Nat.mul_succ, work]
  omega

/-- The worker uses up its work and leaves the main process alone. -/
theorem workerStep_frame (move : exchange.workerStep state = some next) :
    next.program = state.program ∧ next.received = state.received ∧
      next.raised = state.raised ∧ exchange.remaining next < exchange.remaining state := by
  obtain ⟨program, nodeMap, partMemory, taken, hasRaised, ⟨requests, results, replies, acks, work⟩,
    tensors⟩ := state
  rcases work with _ | _ | ⟨block, mapLen, _ | _ | _ | _ | ⟨_ | ⟨tensor, left⟩⟩⟩ | _
  case poll =>
      rcases requests with _ | ⟨_ | _, requests⟩
      · cases move
      all_goals
        obtain rfl := Option.some.inj move
        refine ⟨rfl, rfl, rfl, ?_⟩
        simp only [remaining, workCost, stageCost, List.length_cons, Nat.mul_succ]
        omega
  case stopped => cases move
  case call | preFetch.write.nil =>
      obtain rfl := Option.some.inj move
      refine ⟨rfl, rfl, rfl, ?_⟩
      simp only [remaining, workCost, stageCost, List.length_nil]
      omega
  case preFetch.nodeAck | preFetch.edgeAck =>
      cases acks with
      | zero => cases move
      | succ acks =>
          obtain rfl := Option.some.inj move
          refine ⟨rfl, rfl, rfl, ?_⟩
          simp only [remaining, workCost, stageCost]
          omega
  case preFetch.nodeCheck | preFetch.edgeCheck | preFetch.write.cons =>
      simp only [Exchange.workerStep] at move
      split at move
      all_goals
        obtain rfl := Option.some.inj move
        refine ⟨rfl, rfl, rfl, ?_⟩
        simp only [remaining, workCost, stageCost, List.length_cons]
        omega

variable (exchange) in
/-- An epoch can always be run until neither process can go on. -/
theorem exists_blocked :
    ∃ state, exchange.parties.Reachable exchange.initial state ∧
      exchange.parties.Blocked state := by
  refine Parties.exists_blocked exchange.remaining ?_ exchange.initial
  intro state next (step : exchange.parties.Step state next)
  cases step with
  | first move => exact remaining_mainStep move
  | second move => exact (workerStep_frame move).2.2.2

/-- What was taken stays taken. -/
theorem Broken.later (broken : exchange.Broken state) (taken : state.received ⊆ next.received) :
    exchange.Broken next := by
  obtain ⟨prefetches, ⟨block, reply, member, other⟩, long⟩ := broken
  exact ⟨prefetches, ⟨block, reply, taken member, other⟩, long⟩

/-- Every state is on track, or a message was taken as a reply before. -/
theorem reachable_onTrack (reached : exchange.parties.Reachable exchange.initial state) :
    exchange.OnTrack state ∨ exchange.Broken state := by
  refine @Parties.Reachable.invariant _ exchange.parties
    (fun state => exchange.OnTrack state ∨ exchange.Broken state) _ _
    (.inl (onTrack_initial exchange)) ?_ ?_ reached
  · rintro state next (track | broken) move
    · exact track.mainStep move
    · exact .inr (broken.later (mainStep_frame move).2.2.2)
  · rintro state next (track | broken) move
    · exact .inl (track.workerStep move)
    · have same := (workerStep_frame move).2.1
      exact .inr (broken.later (same ▸ List.Subset.refl _))

/-- Every operation of the program comes up before the program is over, unless the main
process raises. -/
theorem passes {op : MainOp} (planned : op ∈ exchange.program)
    (reached : exchange.parties.Reachable exchange.initial state) :
    state.raised = true ∨ op ∈ state.program ∨
      ∃ passed rest, exchange.parties.Reachable exchange.initial passed ∧
        passed.program = op :: rest := by
  induction reached with
  | refl => exact .inr (.inl planned)
  | @tail before after reached step ih =>
      cases step with
      | first move =>
          obtain ⟨⟨own, rest, program, ⟨same, keeps⟩ | ⟨-, raises⟩⟩, -⟩ := mainStep_frame move
          · rcases ih with raised | waits | passed
            · exact .inl (keeps.trans raised)
            · rw [program] at waits
              rcases List.mem_cons.mp waits with rfl | later
              · exact .inr (.inr ⟨before, rest, reached, program⟩)
              · exact .inr (.inl (same ▸ later))
            · exact .inr (.inr passed)
          · exact .inl raises
      | second move =>
          obtain ⟨program, -, raised, -⟩ := workerStep_frame move
          rw [program, raised]
          exact ih

theorem read_mem_program {block : Nat} (positive : 0 < block) (own : block < exchange.blocks) :
    .read block .sharedRetLen ∈ exchange.program := by
  have load : MainOp.read block .sharedRetLen ∈ exchange.loadOps block := by
    rw [loadOps, if_neg (Nat.ne_of_gt positive)]
    refine List.mem_append_right _ (List.mem_cons_of_mem _ (List.mem_append_left _ ?_))
    exact List.mem_map_of_mem (by simp [readBack])
  refine List.mem_append_left _ (List.mem_flatMap.mpr ⟨block, List.mem_range.mpr own, ?_⟩)
  exact List.mem_append_left _ (List.mem_append_left _ load)

/-- The handshake is safe in every run exactly if no later block is asked for, or the maps
of every later block fit the shared tensors and, with node memory, the node map before it
fits the mask. -/
theorem safe_iff (exchange : Exchange) :
    (∀ state, exchange.parties.Reachable exchange.initial state → exchange.Safe state) ↔
      (exchange.Prefetches → ∀ block, 0 < block → block < exchange.blocks →
        exchange.Fits block) := by
  constructor
  · intro safe prefetches block positive own
    have onTrack : ∀ state, exchange.parties.Reachable exchange.initial state →
        exchange.OnTrack state := by
      intro state reached
      rcases reachable_onTrack reached with track | broken
      · exact track
      · obtain ⟨taken, reply, member, other⟩ := broken.taken
        exact absurd ((safe state reached).received taken reply member) other
    obtain ⟨ended, reached, blocked⟩ := exists_blocked exchange
    rcases passes (read_mem_program positive own) reached with raised | waits |
      ⟨state, rest, passed, reads⟩
    · exact absurd prefetches ((onTrack ended reached).raised raised)
    · rw [(safe ended reached).live blocked] at waits
      cases waits
    · exact ((onTrack state passed).copied reads).fits
  · intro fits state reached
    rcases reachable_onTrack reached with track | broken
    · exact track.safe fits
    · obtain ⟨block, positive, own, long⟩ := broken.long
      exact absurd (fits broken.prefetches block positive own) long

end Exchange

/-- Two blocks, of which the second has a node more than there is room for. -/
def longMap : Exchange where
  blocks := 2
  useAsync := true
  transferCpu := false
  useDisk := false
  useMemory := true
  hasEdgeFeat := true
  nodeRoom := 2000000
  edgeRoom := 3200000
  nodeLen := fun block => 2000000 + block
  edgeLen := fun _ => 3000000
  populated := fun block => Nat.lt_add_right block (Nat.succ_pos 1999999)

/-- Seven requests are answered, the worker sends its message, and the main process goes on
to where it raises. -/
def longMapTurns : List Bool :=
  (List.replicate 7 [true, false, false, true]).flatten ++ [true, true, false, false] ++
    List.replicate 16 true

/-- The message about the second block is taken as its reply, the block is read although
nothing was written, and the main process raises on the empty mask. -/
theorem longMap_unsafe :
    ∃ state, longMap.parties.Reachable longMap.initial state ∧ ¬longMap.Safe state ∧
      (1, .nodeExtension 1) ∈ state.received ∧ longMap.parties.Blocked state ∧
      state.raised = true := by
  have run : ∃ state, longMap.parties.schedule longMapTurns longMap.initial = some state ∧
      (1, .nodeExtension 1) ∈ state.received ∧ longMap.parties.Blocked state ∧
      state.raised = true := by
    refine ⟨_, rfl, ?_, ⟨rfl, rfl⟩, rfl⟩
    decide
  obtain ⟨state, turns, taken, blocked, raised⟩ := run
  refine ⟨state, Parties.schedule_reachable turns, ?_, taken, blocked, raised⟩
  intro safe
  cases safe.received 1 (.nodeExtension 1) taken

end Dolphin.Buffer.Extensions
