import Dolphin.Train.AsyncSample
import Mathlib.Data.List.Infix

/-!
# What the batch loop is given

The queues keep the thread at the pace of the batch loop: it has passed as many first
batches as there are tokens taken and queued as many of the others as there are items put.
So it reads the negatives of its own block, and every item is taken once, in order. But
the item of a batch is taken when the loss of that batch goes backward, and its sample is
given to `gen_mfgs` in the turn behind it.
-/

namespace Dolphin.Train

open Dolphin.Eid Dolphin.Graph Dolphin.Sampler Dolphin.Semantics

/-! ## Plans -/

/-- The first batches among the first `count`. -/
def openers (plan : List (List Nat)) (count : Nat) : Nat :=
  (plan.take count).countP fun batch => decide (Opens batch)

/-- The others. -/
def others (plan : List (List Nat)) (count : Nat) : Nat :=
  (plan.take count).countP fun batch => !decide (Opens batch)

section Counts

variable {plan : List (List Nat)} {i : Nat} {batch : List Nat}

theorem take_succ_of_getElem? (own : plan[i]? = some batch) :
    plan.take (i + 1) = plan.take i ++ [batch] := by
  rw [List.take_add_one, own]
  rfl

theorem openers_succ (own : plan[i]? = some batch) :
    openers plan (i + 1) = openers plan i + if Opens batch then 1 else 0 := by
  rw [openers, take_succ_of_getElem? own, List.countP_append, List.countP_singleton]
  by_cases opens : Opens batch <;> simp [openers, opens]

theorem others_succ (own : plan[i]? = some batch) :
    others plan (i + 1) = others plan i + if Opens batch then 0 else 1 := by
  rw [others, take_succ_of_getElem? own, List.countP_append, List.countP_singleton]
  by_cases opens : Opens batch <;> simp [others, opens]

theorem openers_mono {early late : Nat} (order : early ≤ late) :
    openers plan early ≤ openers plan late :=
  (List.take_prefix_take_left order).sublist.countP_le

theorem others_mono {early late : Nat} (order : early ≤ late) :
    others plan early ≤ others plan late :=
  (List.take_prefix_take_left order).sublist.countP_le

/-- The batches that the thread builds. -/
def waiting (plan : List (List Nat)) : List (List Nat) :=
  plan.filter fun batch => !decide (Opens batch)

/-- A batch that is not the first of its block comes behind the others before it. -/
theorem waiting_getElem? (own : plan[i]? = some batch) (later : ¬Opens batch) :
    (waiting plan)[others plan i]? = some batch := by
  obtain ⟨inside, rfl⟩ := List.getElem?_eq_some_iff.mp own
  have split : plan = plan.take i ++ plan[i] :: plan.drop (i + 1) := by
    rw [List.getElem_cons_drop, List.take_append_drop]
  have kept : waiting plan = waiting (plan.take i) ++ plan[i] :: waiting (plan.drop (i + 1)) := by
    conv_lhs => rw [waiting, split, List.filter_append, List.filter_cons_of_pos (by simpa using later)]
    rfl
  have count : others plan i = (waiting (plan.take i)).length := List.countP_eq_length_filter
  rw [kept, count, List.getElem?_append_right (Nat.le_refl _), Nat.sub_self,
    List.getElem?_cons_zero]

theorem others_length : others plan plan.length = (waiting plan).length := by
  rw [others, List.take_length, List.countP_eq_length_filter]
  rfl

end Counts

/-- Batches of two or more training edges, block after block from the first one on, where only
the first batch of a block begins with a multiple of 60000. -/
structure Planned (run : TrainRun) (plan : List (List Nat)) : Prop where
  sized : run.Sized
  blocks : ∃ blocks : List (List (List Nat)), plan = blocks.flatten ∧
    ∀ block batches, blocks[block]? = some batches → BlockBatches block batches
  known : ∀ batch ∈ plan, ∀ eid ∈ batch,
    eid < run.sizes.trainEdgeEnd ∧ eid < run.stream.eid.length
  concatenates : ∀ batch ∈ plan, Concatenates batch

/-- In blocks that follow each other the first batches count the blocks. -/
theorem blocks_openers {blocks : List (List (List Nat))} {block : Nat}
    (formed : ∀ i batches, blocks[i]? = some batches → BlockBatches (block + i) batches)
    {i : Nat} {batch : List Nat} (own : blocks.flatten[i]? = some batch) :
    batch ≠ [] ∧ ∀ eid ∈ batch, eid / 60000 + 1 = block + openers blocks.flatten (i + 1) := by
  induction blocks generalizing block i with
  | nil => simp at own
  | cons batches blocks ih =>
      obtain ⟨⟨first, rest, same, opens, later⟩, nonempty, inside⟩ := formed 0 batches rfl
      have ones : ∀ count, 0 < count → count ≤ batches.length → openers batches count = 1 := by
        intro count positive bound
        obtain ⟨count, rfl⟩ := Nat.exists_eq_add_of_lt positive
        rw [Nat.zero_add, openers, same, List.take_succ_cons, List.countP_cons_of_pos]
        · have none_ : (rest.take count).countP (fun batch => decide (Opens batch)) = 0 := by
            rw [List.countP_eq_zero]
            intro batch member
            simpa using later batch (List.mem_of_mem_take member)
          rw [none_]
        · simpa using opens
      rw [List.flatten_cons] at own ⊢
      by_cases here : i < batches.length
      · rw [List.getElem?_append_left here] at own
        have member := List.mem_of_getElem? own
        refine ⟨nonempty batch member, fun eid inBatch => ?_⟩
        rw [openers, List.take_append_of_le_length here, ← openers, ones _ (Nat.succ_pos i) here,
          inside batch member eid inBatch]
      · rw [List.getElem?_append_right (Nat.not_lt.mp here)] at own
        have next : ∀ i batches, blocks[i]? = some batches →
            BlockBatches (block + 1 + i) batches := by
          intro i batches at_
          rw [Nat.add_right_comm]
          exact formed (i + 1) batches at_
        obtain ⟨filled, edges⟩ := ih next own
        refine ⟨filled, fun eid inBatch => ?_⟩
        have total : openers (batches ++ blocks.flatten) (i + 1) =
            1 + openers blocks.flatten (i - batches.length + 1) := by
          have positive : 0 < batches.length := by
            rw [same]
            exact Nat.succ_pos _
          have own_ : batches.countP (fun batch => decide (Opens batch)) = 1 := by
            simpa [openers] using ones batches.length positive (Nat.le_refl _)
          rw [openers, List.take_append, List.countP_append, List.take_of_length_le (by omega),
            own_, openers, Nat.succ_sub (Nat.not_lt.mp here)]
        rw [edges eid inBatch, total, Nat.add_assoc]

namespace Planned

variable {run : TrainRun} {plan : List (List Nat)} {i : Nat} {batch : List Nat}

/-- A batch is of the block whose number is that of the first batches up to it. -/
theorem block (planned : Planned run plan) (own : plan[i]? = some batch) :
    ∀ eid ∈ batch, eid / 60000 + 1 = openers plan (i + 1) := by
  obtain ⟨blocks, rfl, formed⟩ := planned.blocks
  have counted := (@blocks_openers blocks 0 (by simpa using formed) i batch own).2
  simpa using counted

theorem nonempty (planned : Planned run plan) (own : plan[i]? = some batch) : batch ≠ [] := by
  obtain ⟨blocks, rfl, formed⟩ := planned.blocks
  exact (@blocks_openers blocks 0 (by simpa using formed) i batch own).1

/-- The first batch is the first of its block. -/
theorem first (planned : Planned run plan) (own : plan[0]? = some batch) : Opens batch := by
  by_contra later
  obtain ⟨eid, member⟩ := List.exists_mem_of_ne_nil batch (planned.nonempty own)
  have counted := planned.block own eid member
  rw [openers_succ own, if_neg later, openers, List.take_zero, List.countP_nil] at counted
  cases counted

theorem mem_blockEdges (planned : Planned run plan) (own : plan[i]? = some batch) :
    ∀ eid ∈ batch, eid ∈ blockEdges run.stream run.sizes.trainEdgeEnd
      (openers plan (i + 1) - 1) := by
  intro eid member
  have block := planned.block own eid member
  obtain ⟨training, inside⟩ := planned.known batch (List.mem_of_getElem? own) eid member
  rw [← block, Nat.add_sub_cancel, blockEdges_eq, List.mem_range'_1]
  omega

end Planned

/-! ## The roots of a batch -/

/-- The roots of a batch with the negatives of its own block. -/
def ownRoots (run : TrainRun) (batch : List Nat) : List Root :=
  rootsOf run.stream batch
    (batch.map fun eid => (run.negatives (eid / 60000)).getD (eid % 60000) 0)

/-- The buffer after the first `count` blocks were loaded: it has the negatives of the
last of them and is ready for the next one. -/
structure AtBlock (run : TrainRun) (count : Nat) (buffer : BlockBuffer) : Prop where
  ready : run.Ready count buffer
  negatives : 0 < count → buffer.negSampleNodes = run.negatives (count - 1)

namespace Planned

variable {run : TrainRun} {plan : List (List Nat)} {i : Nat} {batch : List Nat}

/-- While the block of a batch is in the buffer, its roots are its own. -/
theorem batchRoots (planned : Planned run plan) (own : plan[i]? = some batch)
    {buffer : BlockBuffer} (atBlock : AtBlock run (openers plan (i + 1)) buffer) :
    Train.batchRoots run buffer.negSampleNodes batch = some (ownRoots run batch) := by
  obtain ⟨eid, member⟩ := List.exists_mem_of_ne_nil batch (planned.nonempty own)
  have positive : 0 < openers plan (i + 1) := by
    rw [← planned.block own eid member]
    exact Nat.succ_pos _
  have found : batch.mapM (fun eid => buffer.negSampleNodes[eid % run.sizes.preSampleSize]?) =
      some (batch.map fun eid => (run.negatives (eid / 60000)).getD (eid % 60000) 0) := by
    apply mapM_eq_map
    intro eid member
    have block := planned.block own eid member
    have inside := planned.sized.within (planned.mem_blockEdges own eid member)
    rw [← block, Nat.add_sub_cancel] at inside
    rw [planned.sized.preSampleSize, atBlock.negatives positive, ← block, Nat.add_sub_cancel,
      List.getD_eq_getElem?_getD, List.getElem?_eq_getElem inside, Option.getD_some]
    rfl
  have joined := planned.concatenates batch (List.mem_of_getElem? own)
  rw [Train.batchRoots, found, guard, if_pos joined]
  rfl

/-- `run_batch` of a batch loads its block. -/
theorem runBatch (planned : Planned run plan) (own : plan[i]? = some batch)
    {buffer : BlockBuffer} (atBlock : AtBlock run (openers plan i) buffer) :
    ∃ left loads next, batch.head? = some left ∧
      run.runBatch left buffer = some (loads, next) ∧ AtBlock run (openers plan (i + 1)) next := by
  have head := List.head?_eq_some_head (planned.nonempty own)
  generalize batch.head (planned.nonempty own) = left at head
  have member := List.mem_of_mem_head? head
  have block := planned.block own left member
  by_cases opens : Opens batch
  · obtain ⟨other, same, multiple⟩ := opens
    obtain rfl := Option.some.inj (head.symm.trans same)
    rw [openers_succ own, if_pos ⟨left, head, multiple⟩] at block
    obtain rfl : left = openers plan i * 60000 := by omega
    obtain ⟨next, loaded, inside⟩ := atBlock.ready.runBatch planned.sized
      (planned.known batch (List.mem_of_getElem? own) _ member).1
    refine ⟨_, _, next, head, loaded, ?_⟩
    rw [openers_succ own, if_pos ⟨_, head, multiple⟩]
    exact ⟨inside.next, fun _ => inside.negatives⟩
  · have other : left % 60000 ≠ 0 := fun multiple => opens ⟨left, head, multiple⟩
    refine ⟨left, none, buffer, head, TrainRun.runBatch_other planned.sized other buffer, ?_⟩
    rw [openers_succ own, if_neg opens]
    exact atBlock

end Planned

/-! ## The schedule -/

/-- Whether the turn has run `run_batch`. -/
def Phase.loaded : Phase → Nat
  | .runBatch => 0
  | .signal | .sample | .backward => 1

/-- Whether it has passed `q_control.put`. -/
def Phase.signalled : Phase → Nat
  | .runBatch | .signal => 0
  | .sample | .backward => 1

/-- Whether it has called `gen_mfgs`. -/
def Phase.sampled : Phase → Nat
  | .runBatch | .signal | .sample => 0
  | .backward => 1

/-- The batch whose sample a turn gives to `gen_mfgs`: its own in the first turn of a
block, in the others that of the turn before. -/
def source (plan : List (List Nat)) (i : Nat) : Option (List Nat) := do
  let batch ← plan[i]?
  if Opens batch then some batch else plan[i - 1]?

namespace SampleRun

variable (run : SampleRun)

/-- What is queued in the course of the epoch. -/
def items : List (List Root) := (waiting run.plan).map (ownRoots run.toTrainRun)

/-- The sample of a batch. -/
def ownSample (batch : List Nat) : List SampleRet :=
  run.sampleRoots (ownRoots run.toTrainRun batch)

/-- The thread keeps to the pace of the batch loop. -/
structure OnSchedule (state : SampleState) : Prop where
  turn : state.main < run.plan.length ∨
    state.main = run.plan.length ∧ state.phase = .runBatch
  atBlock : AtBlock run.toTrainRun (openers run.plan (state.main + state.phase.loaded))
    state.buffer
  tokens : openers run.plan state.thread + state.qControl.toNat =
    openers run.plan (state.main + state.phase.signalled)
  behind : others run.plan state.main ≤ others run.plan state.thread
  ahead : others run.plan state.thread ≤ others run.plan state.main + 1
  q : state.q = if others run.plan state.main < others run.plan state.thread then
    run.items[others run.plan state.main]? else none
  queued : state.queued = run.items.take (others run.plan state.thread)
  taken : state.taken = run.items.take (others run.plan state.main)
  item : ∀ roots, state.item = some roots → ∃ batch, run.plan[state.thread]? = some batch ∧
    ¬Opens batch ∧ roots = ownRoots run.toTrainRun batch
  count : state.inputs.length = state.main + state.phase.sampled
  inputs : ∀ i ret, state.inputs[i]? = some ret →
    ∃ batch, source run.plan i = some batch ∧ ret = run.ownSample batch
  ret : state.phase ≠ .backward → 0 < state.main →
    ∃ batch, run.plan[state.main - 1]? = some batch ∧ state.ret = some (run.ownSample batch)
  opened : state.phase = .backward → ∀ batch, run.plan[state.main]? = some batch → Opens batch →
    state.ret = some (run.ownSample batch)

variable {run} {state next : SampleState}

theorem items_getElem? {i : Nat} {batch : List Nat} (own : run.plan[i]? = some batch)
    (later : ¬Opens batch) :
    run.items[others run.plan i]? = some (ownRoots run.toTrainRun batch) := by
  rw [items, List.getElem?_map, waiting_getElem? own later, Option.map_some]

theorem items_take_succ {i : Nat} {batch : List Nat} (own : run.plan[i]? = some batch)
    (later : ¬Opens batch) :
    run.items.take (others run.plan i + 1) =
      run.items.take (others run.plan i) ++ [ownRoots run.toTrainRun batch] := by
  rw [List.take_add_one, items_getElem? own later]
  rfl

theorem onSchedule_initial : run.OnSchedule .initial where
  turn := by
    rcases Nat.eq_zero_or_pos run.plan.length with empty | positive
    · exact Or.inr ⟨empty.symm, rfl⟩
    · exact Or.inl positive
  atBlock := ⟨⟨rfl, fun positive => absurd positive (Nat.lt_irrefl 0)⟩,
    fun positive => absurd positive (Nat.lt_irrefl 0)⟩
  tokens := rfl
  behind := Nat.le_refl _
  ahead := Nat.le_succ _
  q := (if_neg (Nat.lt_irrefl _)).symm
  queued := rfl
  taken := rfl
  item := nofun
  count := rfl
  inputs := by simp [SampleState.initial]
  ret := fun _ positive => absurd positive (Nat.lt_irrefl 0)
  opened := nofun

/-- Where the thread builds a batch, the block of the batch is in the buffer: the thread
has taken its token, and the batch loop has not taken its item. -/
theorem OnSchedule.threadBlock (schedule : run.OnSchedule state) {batch : List Nat}
    (own : run.plan[state.thread]? = some batch) (later : ¬Opens batch) :
    openers run.plan state.thread = openers run.plan (state.main + state.phase.loaded) := by
  have steps : state.phase.signalled ≤ state.phase.loaded ∧ state.phase.loaded ≤ 1 := by
    cases state.phase <;> decide
  have taken : openers run.plan state.thread ≤
      openers run.plan (state.main + state.phase.loaded) := by
    have tokens := schedule.tokens
    have order := @openers_mono run.plan (state.main + state.phase.signalled)
      (state.main + state.phase.loaded) (by omega)
    omega
  have openCount := openers_succ own
  have count := others_succ own
  rw [if_neg later] at openCount count
  have main_le : state.main ≤ state.thread := by
    by_contra past
    have order := @others_mono run.plan (state.thread + 1) state.main (by omega)
    have behind := schedule.behind
    omega
  have loaded := @openers_mono run.plan (state.main + state.phase.loaded) (state.thread + 1)
    (by omega)
  omega

/-- An empty queue has no item under way. -/
theorem OnSchedule.level (schedule : run.OnSchedule state) (free : state.q = none) :
    others run.plan state.main = others run.plan state.thread := by
  have behind := schedule.behind
  by_contra apart
  have waits : others run.plan state.main < others run.plan state.thread := by omega
  have place := schedule.q.symm.trans free
  rw [if_pos waits, List.getElem?_eq_none_iff] at place
  have all := @others_mono run.plan state.thread (max state.thread run.plan.length)
    (Nat.le_max_left _ _)
  have length : others run.plan (max state.thread run.plan.length) = run.items.length := by
    rw [items, List.length_map, ← others_length, others, others,
      List.take_of_length_le (Nat.le_max_right _ _), List.take_length]
  omega

/-- `run_batch` brings in the block of a batch that opens one. -/
theorem OnSchedule.main_runBatch (planned : Planned run.toTrainRun run.plan)
    (schedule : run.OnSchedule state) (phase : state.phase = .runBatch)
    (move : run.mainStep state = some next) : run.OnSchedule next := by
  obtain ⟨main, _, buffer, ret, inputs, thread, item, q, qControl, queued, taken⟩ := state
  subst phase
  obtain ⟨batch, own, move⟩ := Option.bind_eq_some_iff.mp move
  replace own : run.plan[main]? = some batch := own
  have inside : main < run.plan.length := (List.getElem?_eq_some_iff.mp own).1
  obtain ⟨left, loads, loaded, head, load, atBlock⟩ := planned.runBatch own schedule.atBlock
  simp only [head, load, Option.bind_eq_bind, Option.bind_some, Option.some.injEq] at move
  subst move
  exact
    { schedule with
      turn := Or.inl inside
      atBlock := atBlock
      ret := fun _ => schedule.ret nofun
      opened := nofun }

/-- The first batch of a block releases the thread. -/
theorem OnSchedule.main_signal (schedule : run.OnSchedule state) (phase : state.phase = .signal)
    (move : run.mainStep state = some next) : run.OnSchedule next := by
  obtain ⟨main, _, buffer, ret, inputs, thread, item, q, qControl, queued, taken⟩ := state
  subst phase
  obtain ⟨batch, own, move⟩ := Option.bind_eq_some_iff.mp move
  replace own : run.plan[main]? = some batch := own
  have inside : main < run.plan.length := (List.getElem?_eq_some_iff.mp own).1
  have tokens := schedule.tokens
  have count := openers_succ own
  by_cases opens : Opens batch
  · simp only [if_pos opens, Option.ite_none_left_eq_some, Option.some.injEq] at move
    obtain ⟨free, rfl⟩ := move
    rw [Bool.not_eq_true] at free
    rw [if_pos opens] at count
    have put : openers run.plan thread + 1 = openers run.plan (main + 1) := by
      simp only [free, Phase.signalled, Bool.toNat_false, Nat.add_zero] at tokens
      rw [count, ← tokens]
    exact
      { schedule with
        turn := Or.inl inside
        tokens := put
        ret := fun _ => schedule.ret nofun
        opened := nofun }
  · simp only [if_neg opens, Option.some.injEq] at move
    subst move
    rw [if_neg opens] at count
    exact
      { schedule with
        turn := Or.inl inside
        tokens := tokens.trans count.symm
        ret := fun _ => schedule.ret nofun
        opened := nofun }

/-- A batch is sampled from its own roots, now or during the batch before it. -/
theorem OnSchedule.main_sample (planned : Planned run.toTrainRun run.plan)
    (schedule : run.OnSchedule state) (phase : state.phase = .sample)
    (move : run.mainStep state = some next) : run.OnSchedule next := by
  obtain ⟨main, _, buffer, ret, inputs, thread, item, q, qControl, queued, taken⟩ := state
  subst phase
  obtain ⟨batch, own, move⟩ := Option.bind_eq_some_iff.mp move
  replace own : run.plan[main]? = some batch := own
  have inside : main < run.plan.length := (List.getElem?_eq_some_iff.mp own).1
  have roots := planned.batchRoots own schedule.atBlock
  simp only [roots, Option.bind_eq_bind, Option.bind_some] at move
  obtain ⟨given, from_, move⟩ := Option.bind_eq_some_iff.mp move
  obtain rfl := Option.some.inj move
  have gives : ∃ early, source run.plan main = some early ∧ given = run.ownSample early := by
    by_cases opens : Opens batch
    · rw [givenRet, if_pos opens] at from_
      exact ⟨batch, by simp [source, own, opens], (Option.some.inj from_).symm⟩
    · rw [givenRet, if_neg opens] at from_
      have positive : 0 < main := by
        rcases Nat.eq_zero_or_pos main with rfl | positive
        · exact absurd (planned.first own) opens
        · exact positive
      obtain ⟨early, earlier, kept⟩ := schedule.ret nofun positive
      refine ⟨early, ?_, Option.some.inj (from_.symm.trans kept)⟩
      simpa [source, own, opens] using earlier
  have count : inputs.length = main := schedule.count
  exact
    { schedule with
      turn := Or.inl inside
      count := by simp only [List.length_append, count]; rfl
      inputs := by
        intro i value at_
        by_cases old : i < inputs.length
        · rw [List.getElem?_append_left old] at at_
          exact schedule.inputs i value at_
        · rw [List.getElem?_append_right (Nat.not_lt.mp old)] at at_
          obtain ⟨last, rfl⟩ : i - inputs.length = 0 ∧ value = given := by
            rcases index : i - inputs.length with _ | beyond
            · rw [index] at at_
              exact ⟨rfl, (Option.some.inj at_).symm⟩
            · rw [index] at at_
              cases at_
          obtain rfl : i = main := by omega
          exact gives
      ret := fun other => absurd rfl other
      opened := by
        intro _ other same opens
        obtain rfl := Option.some.inj (own.symm.trans same)
        rw [givenRet, if_pos opens] at from_
        exact from_.symm }

/-- The backward pass takes the next item unless the batch opened a block. -/
theorem OnSchedule.main_backward (schedule : run.OnSchedule state) (phase : state.phase = .backward)
    (move : run.mainStep state = some next) : run.OnSchedule next := by
  obtain ⟨main, _, buffer, ret, inputs, thread, item, q, qControl, queued, taken⟩ := state
  subst phase
  obtain ⟨batch, own, move⟩ := Option.bind_eq_some_iff.mp move
  replace own : run.plan[main]? = some batch := own
  have inside : main < run.plan.length := (List.getElem?_eq_some_iff.mp own).1
  have count := others_succ own
  by_cases opens : Opens batch
  · simp only [if_pos opens, Option.some.injEq] at move
    subst move
    rw [if_pos opens, Nat.add_zero] at count
    exact
      { schedule with
        turn := (Nat.lt_or_eq_of_le inside).imp id fun last => ⟨last, rfl⟩
        behind := count ▸ schedule.behind
        ahead := count ▸ schedule.ahead
        q := count ▸ schedule.q
        taken := count ▸ schedule.taken
        ret := fun _ _ => ⟨batch, own, schedule.opened rfl batch own opens⟩
        opened := nofun }
  · rw [if_neg opens] at count
    simp only [if_neg opens] at move
    obtain ⟨got, full, move⟩ := Option.bind_eq_some_iff.mp move
    obtain rfl := Option.some.inj move
    have place := schedule.q.symm.trans full
    have waits : others run.plan main < others run.plan thread := by
      by_contra none_
      rw [if_neg none_] at place
      cases place
    rw [if_pos waits, items_getElem? own opens] at place
    obtain rfl := Option.some.inj place
    have ahead : others run.plan thread ≤ others run.plan main + 1 := schedule.ahead
    exact
      { schedule with
        turn := (Nat.lt_or_eq_of_le inside).imp id fun last => ⟨last, rfl⟩
        behind := count ▸ waits
        ahead := by
          simp only [count]
          omega
        q := by
          simp only [count]
          rw [if_neg (by omega)]
        taken := by
          simp only [count, items_take_succ own opens]
          exact congrArg (· ++ [ownRoots run.toTrainRun batch]) schedule.taken
        ret := fun _ _ => ⟨batch, own, rfl⟩
        opened := nofun }

/-- Each phase of the main thread keeps the schedule. -/
theorem OnSchedule.mainStep (planned : Planned run.toTrainRun run.plan)
    (schedule : run.OnSchedule state) (move : run.mainStep state = some next) :
    run.OnSchedule next := by
  cases phase : state.phase with
  | runBatch => exact schedule.main_runBatch planned phase move
  | signal => exact schedule.main_signal phase move
  | sample => exact schedule.main_sample planned phase move
  | backward => exact schedule.main_backward phase move

/-- An item is built from the negatives of its own block, and put where there is room. -/
theorem OnSchedule.threadStep (planned : Planned run.toTrainRun run.plan)
    (schedule : run.OnSchedule state) (move : run.threadStep state = some next) :
    run.OnSchedule next := by
  obtain ⟨main, phase, buffer, ret, inputs, thread, item, q, qControl, queued, taken⟩ := state
  obtain ⟨batch, own, move⟩ := Option.bind_eq_some_iff.mp move
  replace own : run.plan[thread]? = some batch := own
  have openCount := openers_succ own
  have count := others_succ own
  by_cases opens : Opens batch
  · rw [if_pos opens] at openCount count
    simp only [if_pos opens, Option.ite_none_right_eq_some, Option.some.injEq] at move
    obtain ⟨token, rfl⟩ := move
    have tokens := schedule.tokens
    simp only [token, Bool.toNat_true] at tokens
    exact
      { schedule with
        tokens := by
          simp only [openCount, Bool.toNat_false, Nat.add_zero]
          exact tokens
        behind := count ▸ schedule.behind
        ahead := count ▸ schedule.ahead
        q := count ▸ schedule.q
        queued := count ▸ schedule.queued
        item := by
          intro roots held
          obtain ⟨other, same, later, -⟩ := schedule.item roots held
          obtain rfl := Option.some.inj (own.symm.trans same)
          exact absurd opens later }
  · rw [if_neg opens, Nat.add_zero] at openCount
    rw [if_neg opens] at count
    simp only [if_neg opens] at move
    cases item with
    | none =>
        have atBlock : AtBlock run.toTrainRun (openers run.plan (thread + 1)) buffer := by
          rw [openCount, schedule.threadBlock own opens]
          exact schedule.atBlock
        simp only [planned.batchRoots own atBlock, Option.bind_eq_bind, Option.bind_some,
          Option.some.injEq] at move
        subst move
        exact
          { schedule with
            item := by
              intro roots held
              exact ⟨batch, own, opens, (Option.some.inj held).symm⟩ }
    | some roots =>
        simp only [Option.ite_none_right_eq_some, Option.some.injEq] at move
        obtain ⟨free, rfl⟩ := move
        have level : others run.plan main = others run.plan thread :=
          schedule.level (Option.isNone_iff_eq_none.mp free)
        obtain ⟨other, same, -, rfl⟩ := schedule.item roots rfl
        obtain rfl := Option.some.inj (own.symm.trans same)
        exact
          { schedule with
            tokens := by
              simp only [openCount]
              exact schedule.tokens
            behind := by
              simp only [count, level]
              exact Nat.le_succ _
            ahead := by
              simp only [count, level]
              exact Nat.le_refl _
            q := by
              simp only [count, level]
              rw [if_pos (Nat.lt_succ_self _), items_getElem? own opens]
            queued := by
              simp only [count, items_take_succ own opens]
              exact congrArg (· ++ [ownRoots run.toTrainRun batch]) schedule.queued
            item := nofun }

theorem reachable_onSchedule (planned : Planned run.toTrainRun run.plan)
    (reached : run.parties.Reachable .initial state) : run.OnSchedule state :=
  reached.invariant onSchedule_initial (fun _ _ schedule => schedule.mainStep planned)
    fun _ _ schedule => schedule.threadStep planned

/-! ## The end of the list -/

/-- Where the thread waits, it waits for a token that is not there or for a full queue. -/
theorem OnSchedule.threadStep_none (planned : Planned run.toTrainRun run.plan)
    (schedule : run.OnSchedule state) (waits : run.threadStep state = none) :
    run.plan.length ≤ state.thread ∨ (∃ batch, run.plan[state.thread]? = some batch ∧
      (Opens batch ∧ state.qControl = false ∨ ¬Opens batch ∧ state.q ≠ none)) := by
  by_cases done : run.plan.length ≤ state.thread
  · exact Or.inl done
  · have own := List.getElem?_eq_getElem (Nat.not_le.mp done)
    generalize run.plan[state.thread] = batch at own
    refine Or.inr ⟨batch, own, ?_⟩
    simp only [SampleRun.threadStep, own, Option.bind_eq_bind, Option.bind_some] at waits
    by_cases opens : Opens batch
    · rw [if_pos opens] at waits
      refine Or.inl ⟨opens, ?_⟩
      cases token : state.qControl with
      | false => rfl
      | true => simp [token] at waits
    · rw [if_neg opens] at waits
      refine Or.inr ⟨opens, ?_⟩
      rintro free
      cases held : state.item with
      | some roots => simp [held, free] at waits
      | none =>
          have atBlock : AtBlock run.toTrainRun (openers run.plan (state.thread + 1))
              state.buffer := by
            rw [openers_succ own, if_neg opens, Nat.add_zero, schedule.threadBlock own opens]
            exact schedule.atBlock
          simp [held, planned.batchRoots own atBlock] at waits

/-- Where the batch loop waits, it waits for the thread to take a token or to put an
item. -/
theorem OnSchedule.mainStep_none (planned : Planned run.toTrainRun run.plan)
    (schedule : run.OnSchedule state) (waits : run.mainStep state = none) :
    state.main = run.plan.length ∧ state.phase = .runBatch ∨
      (∃ batch, run.plan[state.main]? = some batch ∧
        (state.phase = .signal ∧ Opens batch ∧ state.qControl = true ∨
          state.phase = .backward ∧ ¬Opens batch ∧ state.q = none)) := by
  rcases schedule.turn with inside | done
  · have own := List.getElem?_eq_getElem inside
    generalize run.plan[state.main] = batch at own
    refine Or.inr ⟨batch, own, ?_⟩
    simp only [SampleRun.mainStep, own, Option.bind_eq_bind, Option.bind_some] at waits
    cases turn : state.phase with
    | runBatch =>
        have atBlock := schedule.atBlock
        rw [turn] at atBlock
        obtain ⟨left, loads, loaded, head, load, -⟩ := planned.runBatch own atBlock
        simp [turn, head, load] at waits
    | signal =>
        by_cases opens : Opens batch
        · refine Or.inl ⟨rfl, opens, ?_⟩
          cases token : state.qControl with
          | false => simp [turn, opens, token] at waits
          | true => rfl
        · simp [turn, opens] at waits
    | sample =>
        have atBlock := schedule.atBlock
        rw [turn] at atBlock
        have roots := planned.batchRoots own atBlock
        have given : ∃ ret, run.givenRet state batch (ownRoots run.toTrainRun batch) = some ret := by
          by_cases opens : Opens batch
          · exact ⟨_, if_pos opens⟩
          · have positive : 0 < state.main := by
              rcases Nat.eq_zero_or_pos state.main with first | positive
              · rw [first] at own
                exact absurd (planned.first own) opens
              · exact positive
            obtain ⟨early, -, kept⟩ := schedule.ret (by simp [turn]) positive
            exact ⟨_, (if_neg opens).trans kept⟩
        obtain ⟨ret, given⟩ := given
        simp [turn, roots, given] at waits
    | backward =>
        by_cases opens : Opens batch
        · simp [turn, opens] at waits
        · refine Or.inr ⟨rfl, opens, ?_⟩
          cases place : state.q with
          | none => rfl
          | some item => simp [turn, opens, place] at waits
  · exact Or.inl done

/-- Both parties wait only at the end of the list. -/
theorem OnSchedule.finished (planned : Planned run.toTrainRun run.plan)
    (schedule : run.OnSchedule state) (blocked : run.parties.Blocked state) :
    state.main = run.plan.length ∧ run.plan.length ≤ state.thread := by
  have tokens := schedule.tokens
  have behind := schedule.behind
  rcases schedule.mainStep_none planned blocked.1 with ⟨done, turn⟩ | ⟨batch, own, waits⟩
  · refine ⟨done, ?_⟩
    rcases schedule.threadStep_none planned blocked.2 with ended | ⟨batch, own, waits⟩
    · exact ended
    · -- The thread is at a batch, which the batch loop has already passed.
      have inside := (List.getElem?_eq_some_iff.mp own).1
      have openOrder := @openers_mono run.plan (state.thread + 1) state.main (by omega)
      have order := @others_mono run.plan (state.thread + 1) state.main (by omega)
      have openCount := openers_succ own
      have count := others_succ own
      rcases waits with ⟨opens, token⟩ | ⟨later, -⟩
      · rw [if_pos opens] at openCount
        rw [turn, token] at tokens
        simp only [Phase.signalled, Bool.toNat_false, Nat.add_zero] at tokens
        omega
      · rw [if_neg later] at count
        omega
  · exfalso
    have inside := (List.getElem?_eq_some_iff.mp own).1
    have openCount := openers_succ own
    have count := others_succ own
    rcases waits with ⟨turn, opens, token⟩ | ⟨turn, later, free⟩
    · -- The token of an earlier block is still there, so the thread can take it or put.
      rw [turn, token] at tokens
      simp only [Phase.signalled, Bool.toNat_true, Nat.add_zero] at tokens
      have earlier : state.thread < state.main := by
        by_contra later
        have order := @openers_mono run.plan state.main state.thread (by omega)
        omega
      rcases schedule.threadStep_none planned blocked.2 with
        ended | ⟨other, otherOwn, ⟨-, none_⟩ | ⟨later, -⟩⟩
      · omega
      · rw [token] at none_
        cases none_
      · have order := @others_mono run.plan (state.thread + 1) state.main earlier
        have otherCount := others_succ otherOwn
        rw [if_neg later] at otherCount
        omega
    · -- The item of this batch is not put yet, and the queue has room for it.
      have level := schedule.level free
      rw [if_neg later] at openCount count
      have earlier : state.thread ≤ state.main := by
        by_contra past
        have order := @others_mono run.plan (state.main + 1) state.thread (by omega)
        omega
      rcases schedule.threadStep_none planned blocked.2 with
        ended | ⟨other, otherOwn, ⟨opens, none_⟩ | ⟨-, full⟩⟩
      · omega
      · rw [turn, none_] at tokens
        simp only [Phase.signalled, Bool.toNat_false, Nat.add_zero] at tokens
        have apart : state.thread ≠ state.main := by
          intro same
          rw [same, own] at otherOwn
          obtain rfl := Option.some.inj otherOwn
          exact later opens
        have order := @openers_mono run.plan (state.thread + 1) state.main (by omega)
        have otherCount := openers_succ otherOwn
        rw [if_pos opens] at otherCount
        omega
      · exact full free

/-- What the two have still to do. -/
def remaining (run : SampleRun) (state : SampleState) : Nat :=
  4 * (run.plan.length - state.main) +
    (match state.phase with
      | .runBatch => 3
      | .signal => 2
      | .sample => 1
      | .backward => 0) +
    (2 * (run.plan.length - state.thread) + if state.item.isNone then 1 else 0)

theorem remaining_mainStep (move : run.mainStep state = some next) :
    remaining run next < remaining run state := by
  obtain ⟨main, phase, buffer, ret, inputs, thread, item, q, qControl, queued, taken⟩ := state
  obtain ⟨batch, own, move⟩ := Option.bind_eq_some_iff.mp move
  have inside : main < run.plan.length := (List.getElem?_eq_some_iff.mp own).1
  cases phase with
  | runBatch =>
      obtain ⟨first, -, move⟩ := Option.bind_eq_some_iff.mp move
      obtain ⟨loaded, -, move⟩ := Option.bind_eq_some_iff.mp move
      obtain rfl := Option.some.inj move
      simp only [remaining]
      omega
  | signal =>
      by_cases opens : Opens batch
      · simp only [if_pos opens, Option.ite_none_left_eq_some, Option.some.injEq] at move
        obtain ⟨-, rfl⟩ := move
        simp only [remaining]
        omega
      · simp only [if_neg opens, Option.some.injEq] at move
        subst move
        simp only [remaining]
        omega
  | sample =>
      obtain ⟨roots, -, move⟩ := Option.bind_eq_some_iff.mp move
      obtain ⟨given, -, move⟩ := Option.bind_eq_some_iff.mp move
      obtain rfl := Option.some.inj move
      simp only [remaining]
      omega
  | backward =>
      by_cases opens : Opens batch
      · simp only [if_pos opens, Option.some.injEq] at move
        subst move
        simp only [remaining]
        omega
      · simp only [if_neg opens] at move
        obtain ⟨got, -, move⟩ := Option.bind_eq_some_iff.mp move
        obtain rfl := Option.some.inj move
        simp only [remaining]
        omega

theorem remaining_threadStep (move : run.threadStep state = some next) :
    remaining run next < remaining run state := by
  obtain ⟨main, phase, buffer, ret, inputs, thread, item, q, qControl, queued, taken⟩ := state
  obtain ⟨batch, own, move⟩ := Option.bind_eq_some_iff.mp move
  have inside : thread < run.plan.length := (List.getElem?_eq_some_iff.mp own).1
  by_cases opens : Opens batch
  · simp only [if_pos opens, Option.ite_none_right_eq_some, Option.some.injEq] at move
    obtain ⟨-, rfl⟩ := move
    simp only [remaining]
    omega
  · simp only [if_neg opens] at move
    cases item with
    | none =>
        obtain ⟨roots, -, move⟩ := Option.bind_eq_some_iff.mp move
        obtain rfl := Option.some.inj move
        simp [remaining]
    | some roots =>
        simp only [Option.ite_none_right_eq_some, Option.some.injEq] at move
        obtain ⟨-, rfl⟩ := move
        have before : (some roots).isNone = false := rfl
        simp only [remaining, before, Option.isNone_none, if_true, Bool.false_eq_true, if_false]
        omega

/-- Every run can be continued to a state where both wait. -/
theorem exists_blocked (run : SampleRun) :
    ∃ state, run.parties.Reachable .initial state ∧ run.parties.Blocked state := by
  refine Parties.exists_blocked (remaining run) ?_ .initial
  intro state next step
  cases step with
  | first move => exact remaining_mainStep move
  | second move => exact remaining_threadStep move

/-! ## The samples -/

/-- Without the thread every turn is given the sample of its own batch. -/
theorem syncLoop_eq (planned : Planned run.toTrainRun run.plan) {i : Nat}
    {batches : List (List Nat)} (suffix : run.plan.drop i = batches) {buffer : BlockBuffer}
    (atBlock : AtBlock run.toTrainRun (openers run.plan i) buffer) :
    run.syncLoop batches buffer = some (batches.map run.ownSample) := by
  induction batches generalizing i buffer with
  | nil => rfl
  | cons batch batches ih =>
      obtain ⟨own, rest⟩ := drop_eq_cons suffix
      obtain ⟨left, loads, loaded, head, load, later⟩ := planned.runBatch own atBlock
      simp only [syncLoop, head, load, planned.batchRoots own later, ih rest later,
        Option.bind_eq_bind, Option.bind_some]
      rfl

theorem syncLoop_plan (planned : Planned run.toTrainRun run.plan) :
    run.syncLoop run.plan .reset = some (run.plan.map run.ownSample) :=
  syncLoop_eq planned (i := 0) rfl onSchedule_initial.atBlock

/-- The first layer of a sample has the roots. -/
theorem ownSample_inj {early late : List Nat} :
    run.ownSample early = run.ownSample late ↔
      ownRoots run.toTrainRun early = ownRoots run.toTrainRun late := by
  constructor
  · intro same
    exact congrArg SampleRet.roots (List.cons.inj same).1
  · intro same
    rw [ownSample, ownSample, same]

end SampleRun

/-- What the run with the thread is to be in a state: every turn so far was given the
sample it is given without the thread; the items are those of the batches, built with the
negatives of their blocks, and are taken once, in order; and where both parties wait, the
list is at its end. -/
structure SampleRun.Equivalent (run : SampleRun) (state : SampleState) : Prop where
  inputs : ∃ sync, run.syncLoop run.plan .reset = some sync ∧ state.inputs <+: sync
  queued : state.queued <+: run.items
  taken : state.taken <+: state.queued
  finishes : run.parties.Blocked state → state.main = run.plan.length ∧
    run.plan.length ≤ state.thread ∧ state.inputs.length = run.plan.length ∧
    state.queued = run.items ∧ state.taken = run.items

namespace SampleRun

variable {run : SampleRun} {state : SampleState}

/-- What a turn is given, if batches share the roots of the batch before them. -/
theorem OnSchedule.inputs_prefix (schedule : run.OnSchedule state)
    (repeats : ∀ i early late, run.plan[i]? = some early → run.plan[i + 1]? = some late →
      ¬Opens late → ownRoots run.toTrainRun early = ownRoots run.toTrainRun late) :
    state.inputs <+: run.plan.map run.ownSample := by
  have each : ∀ (i : Nat) (ret : List SampleRet), state.inputs[i]? = some ret →
      (run.plan.map run.ownSample)[i]? = some ret := by
    intro i ret given
    obtain ⟨batch, from_, rfl⟩ := schedule.inputs i ret given
    obtain ⟨late, own, from_⟩ := Option.bind_eq_some_iff.mp from_
    rw [List.getElem?_map, own, Option.map_some, Option.some_inj]
    by_cases opens : Opens late
    · rw [if_pos opens] at from_
      rw [Option.some.inj from_]
    · rw [if_neg opens] at from_
      cases i with
      | zero =>
          obtain rfl := Option.some.inj (own.symm.trans from_)
          rfl
      | succ i => exact (ownSample_inj.mpr (repeats i batch late from_ own opens)).symm
  rw [List.prefix_iff_getElem?]
  intro i inside
  exact each i _ (List.getElem?_eq_getElem inside)

/-- At the end every item has been taken. -/
theorem OnSchedule.finishes (planned : Planned run.toTrainRun run.plan)
    (schedule : run.OnSchedule state) (blocked : run.parties.Blocked state) :
    state.main = run.plan.length ∧ run.plan.length ≤ state.thread ∧
      state.inputs.length = run.plan.length ∧ state.queued = run.items ∧
      state.taken = run.items := by
  obtain ⟨main, thread⟩ := schedule.finished planned blocked
  have turn : state.phase = .runBatch := by
    rcases schedule.turn with inside | done
    · omega
    · exact done.2
  have all : ∀ count, run.plan.length ≤ count → run.items.take (others run.plan count) =
      run.items := by
    intro count enough
    have length : others run.plan count = run.items.length := by
      rw [items, List.length_map, ← others_length, others, others,
        List.take_of_length_le enough, List.take_length]
    rw [length, List.take_length]
  refine ⟨main, thread, ?_, ?_, ?_⟩
  · rw [schedule.count, turn, main]
    rfl
  · rw [schedule.queued, all _ thread]
  · rw [schedule.taken, all _ (Nat.le_of_eq main.symm)]

end SampleRun

open SampleRun in
/-- The thread is a mere speed-up exactly if every batch that is not the first of its
block has the roots and the times of the batch before it. -/
theorem async_sample_iff {run : SampleRun} (planned : Planned run.toTrainRun run.plan) :
    (∀ state, run.parties.Reachable .initial state → run.Equivalent state) ↔
      ∀ i early late, run.plan[i]? = some early → run.plan[i + 1]? = some late → ¬Opens late →
        ownRoots run.toTrainRun early = ownRoots run.toTrainRun late := by
  constructor
  · intro equivalent i early late ownEarly ownLate later
    obtain ⟨state, reached, blocked⟩ := exists_blocked run
    have schedule := reachable_onSchedule planned reached
    obtain ⟨sync, loop, rest, rfl⟩ := (equivalent state reached).inputs
    have inside : i + 1 < state.inputs.length := by
      rw [(schedule.finishes planned blocked).2.2.1]
      exact (List.getElem?_eq_some_iff.mp ownLate).1
    have given := List.getElem?_eq_getElem inside
    obtain ⟨batch, from_, same⟩ := schedule.inputs (i + 1) _ given
    have shifted : source run.plan (i + 1) = some early := by
      simp [source, ownLate, later, ownEarly]
    obtain rfl := Option.some.inj (from_.symm.trans shifted)
    have alone := Option.some.inj (loop.symm.trans (syncLoop_plan planned))
    have wanted : (state.inputs ++ rest)[i + 1]? = some (run.ownSample late) := by
      rw [alone, List.getElem?_map, ownLate, Option.map_some]
    rw [List.getElem?_append_left inside, given, same, Option.some_inj] at wanted
    exact ownSample_inj.mp wanted
  · intro repeats state reached
    have schedule := reachable_onSchedule planned reached
    refine ⟨⟨_, syncLoop_plan planned, schedule.inputs_prefix repeats⟩, ?_, ?_,
      schedule.finishes planned⟩
    · rw [schedule.queued]
      exact List.take_prefix _ _
    · rw [schedule.queued, schedule.taken]
      exact List.take_prefix_take_left schedule.behind

theorem length_firstNodes (_ n : Nat) : (List.replicate n 0).length = n := List.length_replicate

/-- Four edges of one block in two batches. -/
def twoBatches : SampleRun where
  stream := ⟨[0, 1, 0, 2], [1, 2, 2, 1], [5, 6, 7, 8], [0, 1, 2, 3], rfl, rfl, rfl, rfl⟩
  sizes := ⟨60000, 2000, 4⟩
  useAsync := true
  sample := fun _ n => List.replicate n 0
  sampleLength := length_firstNodes
  graph := ⟨[0, 2, 5, 8], [1, 2, 0, 2, 2, 1, 0, 1], [5, 7, 5, 6, 8, 6, 7, 8],
    [0, 2, 0, 1, 3, 1, 2, 3]⟩
  fanNum := 10
  fanNums := []
  plan := [[0, 1], [2, 3]]

theorem twoBatches_planned : Planned twoBatches.toTrainRun twoBatches.plan where
  sized := ⟨rfl, rfl⟩
  blocks := by
    refine ⟨[[[0, 1], [2, 3]]], rfl, ?_⟩
    intro block batches own
    match block with
    | 0 =>
        obtain rfl : [[0, 1], [2, 3]] = batches := Option.some.inj own
        exact ⟨⟨[0, 1], [[2, 3]], rfl, by decide, by decide⟩, by decide, by decide⟩
    | block + 1 => cases own
  known := by decide
  concatenates := by decide

theorem async_sample_iff_twoBatches :
    (∀ state, twoBatches.parties.Reachable .initial state → twoBatches.Equivalent state) ↔
      ∀ i early late, twoBatches.plan[i]? = some early → twoBatches.plan[i + 1]? = some late →
        ¬Opens late →
        ownRoots twoBatches.toTrainRun early = ownRoots twoBatches.toTrainRun late :=
  async_sample_iff twoBatches_planned

/-- The second turn is given the sample of the first batch. -/
theorem second_turn_repeats :
    Planned twoBatches.toTrainRun twoBatches.plan ∧
    ∃ state, twoBatches.parties.Reachable .initial state ∧ ¬twoBatches.Equivalent state ∧
      state.inputs = [twoBatches.ownSample [0, 1], twoBatches.ownSample [0, 1]] := by
  have run : ∃ state, twoBatches.parties.schedule
      [true, true, true, true, true, true, true] .initial = some state ∧
      state.inputs = [twoBatches.ownSample [0, 1], twoBatches.ownSample [0, 1]] := ⟨_, rfl, rfl⟩
  obtain ⟨state, run, inputs⟩ := run
  refine ⟨twoBatches_planned, state, Parties.schedule_reachable run, ?_, inputs⟩
  intro equivalent
  obtain ⟨sync, loop, given⟩ := equivalent.inputs
  have alone := SampleRun.syncLoop_plan twoBatches_planned
  obtain rfl := Option.some.inj (alone.symm.trans loop)
  rw [inputs] at given
  exact absurd given (by decide)

end Dolphin.Train
