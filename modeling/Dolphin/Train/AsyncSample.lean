import Dolphin.Eid.BatchLoop
import Dolphin.Semantics.Parties

/-!
# Sampling beside the training loop

With `use_async_sample` a thread builds the roots of the batches and hands them over
through a queue of one place; at the first batch of a block it waits for a token of the
main loop, which builds and samples the roots of that batch itself. The main loop takes a
queued item while the loss goes backward, samples it, and keeps the sample in `ret`.
-/

namespace Dolphin.Train

open Dolphin.Eid Dolphin.Graph Dolphin.Sampler Dolphin.Semantics

/-- A training run with its sampler, which has one layer at least, and the batches. -/
structure SampleRun extends TrainRun where
  graph : TemporalCsr
  fanNum : Nat
  fanNums : List Nat
  plan : List (List Nat)

instance (batch : List Nat) : Decidable (Opens batch) :=
  match head : batch.head? with
  | none => isFalse fun opens => by
      obtain ⟨left, same, -⟩ := opens
      rw [head] at same
      cases same
  | some left =>
      decidable_of_iff (left % 60000 = 0)
        ⟨fun multiple => ⟨left, head, multiple⟩, fun ⟨other, same, multiple⟩ => by
          obtain rfl := Option.some.inj (head.symm.trans same)
          exact multiple⟩

/-- `root_nodes_np` with `ts`. -/
def rootsOf (stream : EdgeStream) (batch neg : List Nat) : List Root :=
  let column (values : List Nat) := batch.map fun eid => values.getD eid 0
  (column stream.src ++ column stream.dst ++ neg).zip
    (column stream.time ++ column stream.time ++ column stream.time)

/-- The roots of a batch with the negatives that are in the buffer. -/
def batchRoots (run : TrainRun) (negSampleNodes batch : List Nat) : Option (List Root) := do
  let neg ← batch.mapM fun eid => negSampleNodes[eid % run.sizes.preSampleSize]?
  guard (Concatenates batch)
  some (rootsOf run.stream batch neg)

/-- Where a turn of the batch loop is: before `run_batch`, before `q_control.put`, before
`gen_mfgs`, before `loss.backward`. -/
inductive Phase where
  | runBatch
  | signal
  | sample
  | backward
  deriving DecidableEq

/-- The main loop, the thread and the two queues. `inputs` are the samples given to
`gen_mfgs` so far, `queued` and `taken` the items that went into `q` and out of it. -/
structure SampleState where
  main : Nat
  phase : Phase
  buffer : BlockBuffer
  ret : Option (List SampleRet)
  inputs : List (List SampleRet)
  thread : Nat
  /-- `(root_nodes_np, ts)` before `q.put`. -/
  item : Option (List Root)
  q : Option (List Root)
  qControl : Bool
  queued : List (List Root)
  taken : List (List Root)

/-- After `feat_buffer.reset()`, with the thread started. -/
def SampleState.initial : SampleState where
  main := 0
  phase := .runBatch
  buffer := .reset
  ret := none
  inputs := []
  thread := 0
  item := none
  q := none
  qControl := false
  queued := []
  taken := []

namespace SampleRun

variable (run : SampleRun)

/-- `sampler_gpu.sample_layer`. -/
def sampleRoots (roots : List Root) : List SampleRet :=
  sampleLayer run.graph (run.fanNum :: run.fanNums) roots

/-- `ret` before `gen_mfgs`: the first batch of a block is sampled in its own turn. -/
def givenRet (state : SampleState) (batch : List Nat) (roots : List Root) :
    Option (List SampleRet) :=
  if Opens batch then some (run.sampleRoots roots) else state.ret

/-- The next step of the batch loop. `q_control.put` waits for a free place and `q.get`
for an item. -/
def mainStep (state : SampleState) : Option SampleState := do
  let batch ← run.plan[state.main]?
  match state.phase with
  | .runBatch =>
      let left ← batch.head?
      let (_, buffer) ← run.runBatch left state.buffer
      some { state with buffer := buffer, phase := .signal }
  | .signal =>
      if Opens batch then
        if state.qControl then none else some { state with qControl := true, phase := .sample }
      else some { state with phase := .sample }
  | .sample =>
      let roots ← batchRoots run.toTrainRun state.buffer.negSampleNodes batch
      let ret ← run.givenRet state batch roots
      some { state with ret := some ret, inputs := state.inputs ++ [ret], phase := .backward }
  | .backward =>
      if Opens batch then some { state with main := state.main + 1, phase := .runBatch }
      else
        let item ← state.q
        some
          { state with
            q := none
            taken := state.taken ++ [item]
            ret := some (run.sampleRoots item)
            main := state.main + 1
            phase := .runBatch }

/-- The next step of `mini_prefetch`. `q_control.get` waits for a token and `q.put` for a
free place. -/
def threadStep (state : SampleState) : Option SampleState := do
  let batch ← run.plan[state.thread]?
  if Opens batch then
    if state.qControl then some { state with qControl := false, thread := state.thread + 1 }
    else none
  else
    match state.item with
    | none =>
        let roots ← batchRoots run.toTrainRun state.buffer.negSampleNodes batch
        some { state with item := some roots }
    | some item =>
        if state.q.isNone then
          some
            { state with
              q := some item
              item := none
              queued := state.queued ++ [item]
              thread := state.thread + 1 }
        else none

/-- The batch loop and the thread. -/
def parties : Parties SampleState := ⟨run.mainStep, run.threadStep⟩

/-- The batch loop with `use_async_sample` off: the samples given to `gen_mfgs`. -/
def syncLoop : List (List Nat) → BlockBuffer → Option (List (List SampleRet))
  | [], _ => some []
  | batch :: batches, buffer => do
      let left ← batch.head?
      let (_, buffer) ← run.runBatch left buffer
      let roots ← batchRoots run.toTrainRun buffer.negSampleNodes batch
      let inputs ← syncLoop batches buffer
      some (run.sampleRoots roots :: inputs)

end SampleRun

end Dolphin.Train
