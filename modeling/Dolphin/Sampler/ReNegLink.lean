import Dolphin.Number.BinaryFloat
import Dolphin.Semantics.Largest
import Dolphin.Tensor.Sort
import Mathlib.Data.List.GetD
import Mathlib.Order.OrderDual

/-!
# Negatives that are used again

`ReNegLinkSampler` keeps the last sample and how often each of its nodes has been used
again. The next sample takes over a part of it, those that were used the fewest times,
and draws the rest. Node ids and uses fit their int32.
-/

namespace Dolphin.Sampler

open Dolphin.Semantics Dolphin.Tensor

/-! ## The sampler -/

/-- A float64: `num` parts, of which `2 ^ shift` make a whole. -/
structure Ratio where
  num : Int
  shift : Nat

/-- `int(n * ratio)` of a positive ratio. -/
def Ratio.part (ratio : Ratio) (n : Nat) : Nat :=
  BinaryFloat.ofNat 52 (n * ratio.num.toNat) / 2 ^ ratio.shift

/-- The random numbers of a call and the order that its `np.argsort` makes. -/
structure Draw (numNodes : Nat) where
  randint : Nat → List Nat
  randintLength : ∀ size, (randint size).length = size
  randintLt : ∀ size, ∀ v ∈ randint size, v < numNodes
  argsort : List Nat → List Nat
  argsortPerm : ∀ t, (argsort t).Perm (List.range t.length)
  argsortSorted : ∀ t, (argsort t).Pairwise fun p q => t.getD p default ≤ t.getD q default
  randperm : Nat → List Nat
  randpermPerm : ∀ n, (randperm n).Perm (List.range n)

/-- What indexing an array with a tensor gives: for a tensor of one entry a scalar. -/
inductive Indexed where
  | array (values : List Nat)
  | scalar (value : Nat)
  deriving DecidableEq

/-- `values[ind]` for a tensor `ind`. -/
def indexWith (values : List Nat) : List Nat → Indexed
  | [i] => .scalar (values.getD i default)
  | ind => .array (gather values ind)

/-- `pre_ttl` of a scalar `pre_res` is never read. -/
structure ReNegLinkSampler (numNodes : Nat) where
  ratio : Ratio
  preRes : Option Indexed
  preTtl : List Nat

/-- `xs[:size] = vals` for the front of an array; one value is written to all places. -/
def assignFront (size : Nat) (vals : List Nat) : Option (List Nat) :=
  if vals.length = size then some vals
  else if vals.length = 1 then some (List.replicate size (vals.getD 0 0))
  else none

namespace ReNegLinkSampler

variable {numNodes : Nat}

/-- `__init__`. -/
def init (numNodes : Nat) (ratio : Ratio) : ReNegLinkSampler numNodes := ⟨ratio, none, []⟩

/-- `sample(n)`. An assignment may not fit, `randint` has no negative size, and a scalar has
no `shape[0]`. -/
def sample (sampler : ReNegLinkSampler numNodes) (draw : Draw numNodes) (n : Nat) :
    Option (Indexed × ReNegLinkSampler numNodes) :=
  if sampler.ratio.num ≤ 0 then some (.array (draw.randint n), sampler)
  else
    match sampler.preRes with
    | none =>
        let curRes := draw.randint n
        some (.array curRes,
          { sampler with preRes := some (.array curRes), preTtl := List.replicate n 0 })
    | some (.scalar _) => none
    | some (.array preRes) =>
        if n < preRes.length then some (.array (draw.randint n), sampler)
        else do
          let reuseNum := sampler.ratio.part preRes.length
          let preReuseInd := (draw.argsort sampler.preTtl).take reuseNum
          let reused ← assignFront (min reuseNum n) (gather preRes preReuseInd)
          let reusedTtl ← assignFront (min reuseNum n)
            ((gather sampler.preTtl preReuseInd).map (· + 1))
          if n < reuseNum then none
          else
            let curRes := reused ++ draw.randint (n - reuseNum)
            let curTtl := reusedTtl ++ List.replicate (n - reuseNum) 0
            let ind := draw.randperm n
            some (indexWith curRes ind,
              { sampler with preRes := some (indexWith curRes ind), preTtl := gather curTtl ind })

/-- Some calls, with the samples they return. -/
def run (sampler : ReNegLinkSampler numNodes) :
    List (Draw numNodes × Nat) → Option (List Indexed × ReNegLinkSampler numNodes)
  | [] => some ([], sampler)
  | (draw, n) :: calls => do
      let (res, sampler) ← sampler.sample draw n
      let (samples, sampler) ← run sampler calls
      some (res :: samples, sampler)

end ReNegLinkSampler

/-! ## What a sample takes over -/

/-- A node of a sample and how often it has been used again. -/
structure Use where
  node : Nat
  ttl : Nat
  deriving DecidableEq

instance : Inhabited Use := ⟨⟨default, default⟩⟩

/-- It is used once more. -/
def Use.again (use : Use) : Use := { use with ttl := use.ttl + 1 }

/-- A sample of `n` nodes takes over `count` nodes of the one before, those that were used
the fewest times, and the others are new. -/
structure TakesOver (numNodes count n : Nat) (before after : List Use) : Prop where
  parts : ∃ (young : List Use) (fresh : List Nat), Largest (fun use => OrderDual.toDual use.ttl) count before
    young ∧
    after.Perm (young.map Use.again ++ fresh.map fun v => ⟨v, 0⟩) ∧
    fresh.length = n - count ∧ ∀ v ∈ fresh, v < numNodes
  fits : count ≤ before.length ∧ before.length ≤ n

namespace ReNegLinkSampler

variable {numNodes : Nat} {sampler : ReNegLinkSampler numNodes}

/-- The sampler keeps the uses of a sample. -/
structure Keeps (sampler : ReNegLinkSampler numNodes) (uses : List Use) : Prop where
  res : sampler.preRes = some (.array (uses.map Use.node))
  ttl : sampler.preTtl = uses.map Use.ttl

/-- The ratio is between 0 and 1. -/
def Proper (ratio : Ratio) : Prop := 0 < ratio.num ∧ ratio.num.toNat ≤ 2 ^ ratio.shift

/-- A part is not larger than the whole. -/
theorem part_le {ratio : Ratio} (proper : Proper ratio) {n : Nat} (small : n ≤ 2 ^ 53) :
    ratio.part n ≤ n := by
  have product : BinaryFloat.ofNat 52 (n * ratio.num.toNat) ≤ n * 2 ^ ratio.shift :=
    BinaryFloat.ofNat_le small (Nat.mul_le_mul_left n proper.2)
  exact Nat.div_le_of_le_mul (product.trans_eq (Nat.mul_comm _ _))

/-- Too short a sample is drawn, and the one before is kept. -/
theorem sample_short (proper : Proper sampler.ratio) {uses : List Use}
    (keeps : sampler.Keeps uses) (draw : Draw numNodes) {n : Nat} (short : n < uses.length) :
    sampler.sample draw n = some (.array (draw.randint n), sampler) := by
  rw [sample, if_neg (Int.not_le.mpr proper.1)]
  simp only [keeps.res, List.length_map]
  exact if_pos short

/-- An index tensor of more than one entry, or of none, gives an array. -/
theorem indexWith_eq {values ind : List Nat} (plural : ind.length ≠ 1) :
    indexWith values ind = .array (gather values ind) := by
  match ind with
  | [] => rfl
  | [_] => exact absurd rfl plural
  | _ :: _ :: _ => rfl

theorem assignFront_eq {size : Nat} {vals : List Nat} (sized : vals.length = size) :
    assignFront size vals = some vals := if_pos sized

/-- A sample that is not shorter takes over a part of the one before. -/
theorem sample_takesOver (proper : Proper sampler.ratio) {uses : List Use}
    (keeps : sampler.Keeps uses) (draw : Draw numNodes) {n : Nat} (long : uses.length ≤ n)
    (small : n ≤ 2 ^ 53) (plural : n ≠ 1) :
    ∃ after next, sampler.sample draw n = some (.array (after.map Use.node), next) ∧
      next.ratio = sampler.ratio ∧ next.Keeps after ∧
      TakesOver numNodes (sampler.ratio.part uses.length) n uses after := by
  let count := sampler.ratio.part uses.length
  have few : count ≤ uses.length := part_le proper (long.trans small)
  have order := draw.argsortPerm (uses.map Use.ttl)
  rw [List.length_map] at order
  let preReuseInd := (draw.argsort (uses.map Use.ttl)).take count
  have inRange : ∀ i ∈ preReuseInd, i < uses.length := fun i member =>
    List.mem_range.mp (order.mem_iff.mp (List.mem_of_mem_take member))
  let young := gather uses preReuseInd
  have largest : Largest (fun use => OrderDual.toDual use.ttl) count uses young := by
    have rising := draw.argsortSorted (uses.map Use.ttl)
    have descending : (gather uses (draw.argsort (uses.map Use.ttl))).Pairwise
        fun x y => OrderDual.toDual y.ttl ≤ OrderDual.toDual x.ttl := by
      have ttlAt (i : Nat) : (uses.map Use.ttl).getD i default = (uses.getD i default).ttl :=
        List.getD_map uses (default : Use) Use.ttl
      refine List.pairwise_map.mpr (rising.imp fun {p q} order => ?_)
      rw [ttlAt, ttlAt] at order
      exact order
    have young_eq : young = (gather uses (draw.argsort (uses.map Use.ttl))).take count :=
      List.map_take
    rw [young_eq]
    exact (Largest.take descending count).perm (gather_perm order)
  have youngLength : young.length = count := largest.length.trans (Nat.min_eq_left few)
  let fresh := draw.randint (n - count)
  have freshLength : fresh.length = n - count := draw.randintLength _
  let cur := young.map Use.again ++ fresh.map fun v => (⟨v, 0⟩ : Use)
  have curLength : cur.length = n := by
    rw [List.length_append, List.length_map, List.length_map, youngLength, freshLength,
      Nat.add_sub_cancel' (few.trans long)]
  have curRes : young.map Use.node ++ fresh = cur.map Use.node := by
    simp [cur, Use.again, Function.comp_def]
  have curTtl : (young.map Use.ttl).map (· + 1) ++ List.replicate (n - count) 0 =
      cur.map Use.ttl := by
    rw [← freshLength]
    simp [cur, Use.again, Function.comp_def, List.map_const']
  have shuffle := draw.randpermPerm n
  have shuffled : ∀ i ∈ draw.randperm n, i < cur.length := fun i member =>
    curLength.symm ▸ List.mem_range.mp (shuffle.mem_iff.mp member)
  have several : (draw.randperm n).length ≠ 1 := by
    rwa [shuffle.length_eq, List.length_range]
  have reused : gather (uses.map Use.node) preReuseInd = young.map Use.node :=
    gather_map Use.node inRange
  have reusedTtl : gather (uses.map Use.ttl) preReuseInd = young.map Use.ttl :=
    gather_map Use.ttl inRange
  refine ⟨gather cur (draw.randperm n), { sampler with
    preRes := some (.array ((gather cur (draw.randperm n)).map Use.node))
    preTtl := (gather cur (draw.randperm n)).map Use.ttl }, ?_, rfl, ⟨rfl, rfl⟩, ?_, few, long⟩
  · rw [sample, if_neg (Int.not_le.mpr proper.1)]
    simp only [keeps.res, keeps.ttl, List.length_map, Option.bind_eq_bind,
      if_neg (Nat.not_lt.mpr long), indexWith_eq several]
    rw [reused, reusedTtl, Nat.min_eq_left (few.trans long),
      assignFront_eq (by rw [List.length_map, youngLength]),
      assignFront_eq (by rw [List.length_map, List.length_map, youngLength]),
      Option.bind_some, Option.bind_some, if_neg (Nat.not_lt.mpr (few.trans long)), curRes, curTtl,
      gather_map Use.node shuffled, gather_map Use.ttl shuffled]
  · have permuted : (gather cur (draw.randperm n)).Perm cur :=
      gather_perm (curLength.symm ▸ shuffle)
    exact ⟨young, fresh, largest, permuted, freshLength, draw.randintLt _⟩

end ReNegLinkSampler

/-! ## Runs -/

/-- A call as a step on the uses of the last sample: it is drawn because it is too short or
the first one, or it takes over a part of the one before. -/
inductive Called (numNodes : Nat) (ratio : Ratio) (n : Nat) :
    Option (List Use) → List Nat → Option (List Use) → Prop
  | short {uses : List Use} {res : List Nat} (short : n < uses.length) (length : res.length = n)
      (nodes : ∀ v ∈ res, v < numNodes) : Called numNodes ratio n (some uses) res (some uses)
  | first {res : List Nat} (length : res.length = n) (nodes : ∀ v ∈ res, v < numNodes) :
      Called numNodes ratio n none res (some (res.map fun v => ⟨v, 0⟩))
  | later {before after : List Use}
      (takesOver : TakesOver numNodes (ratio.part before.length) n before after) :
      Called numNodes ratio n (some before) (after.map Use.node) (some after)

/-- Some calls one after the other. -/
inductive Calls (numNodes : Nat) (ratio : Ratio) :
    List Nat → Option (List Use) → List (List Nat) → Option (List Use) → Prop
  | nil {state : Option (List Use)} : Calls numNodes ratio [] state [] state
  | cons {n : Nat} {sizes : List Nat} {state next last : Option (List Use)} {res : List Nat}
      {samples : List (List Nat)} (call : Called numNodes ratio n state res next)
      (rest : Calls numNodes ratio sizes next samples last) :
      Calls numNodes ratio (n :: sizes) state (res :: samples) last

/-- The number of nodes in the last sample. -/
def stateLength : Option (List Use) → Nat
  | none => 0
  | some uses => uses.length

theorem TakesOver.length {numNodes count n : Nat} {before after : List Use}
    (takesOver : TakesOver numNodes count n before after) : after.length = n := by
  obtain ⟨⟨young, fresh, largest, perm, length, -⟩, few, long⟩ := takesOver
  have split := perm.length_eq
  have own := largest.length
  rw [List.length_append, List.length_map, List.length_map] at split
  omega

/-- The last sample does not become shorter. -/
theorem Called.stateLength_le {numNodes n : Nat} {ratio : Ratio} {state next : Option (List Use)}
    {res : List Nat} (call : Called numNodes ratio n state res next) :
    stateLength state ≤ stateLength next := by
  cases call with
  | short => exact Nat.le_refl _
  | first => exact Nat.zero_le _
  | later takesOver => exact takesOver.fits.2.trans_eq takesOver.length.symm

namespace ReNegLinkSampler

variable {numNodes : Nat} {sampler : ReNegLinkSampler numNodes}

/-- The sampler before the first call, or with the uses of a sample. -/
def Holds (sampler : ReNegLinkSampler numNodes) : Option (List Use) → Prop
  | none => sampler.preRes = none
  | some uses => sampler.Keeps uses

/-- A call for one node is for fewer nodes than the last sample has. -/
def Plural (state : Option (List Use)) (n : Nat) : Prop := n = 1 → 1 < stateLength state

theorem sample_called (proper : Proper sampler.ratio) {state : Option (List Use)}
    (holds : sampler.Holds state) (draw : Draw numNodes) {n : Nat} (small : n ≤ 2 ^ 53)
    (plural : Plural state n) :
    ∃ res next sampler', sampler.sample draw n = some (.array res, sampler') ∧
      sampler'.ratio = sampler.ratio ∧ sampler'.Holds next ∧
      Called numNodes sampler.ratio n state res next := by
  cases state with
  | none =>
      have first : sampler.preRes = none := holds
      refine ⟨draw.randint n, _, { sampler with
        preRes := some (.array (draw.randint n)), preTtl := List.replicate n 0 }, ?_, rfl, ?_,
        .first (draw.randintLength n) (draw.randintLt n)⟩
      · rw [sample, if_neg (Int.not_le.mpr proper.1)]
        simp only [first]
      · exact ⟨by simp [Function.comp_def],
          by simp [Function.comp_def, List.map_const', draw.randintLength]⟩
  | some uses =>
      by_cases short : n < uses.length
      · exact ⟨_, some uses, sampler, sample_short proper holds draw short, rfl, holds,
          .short short (draw.randintLength n) (draw.randintLt n)⟩
      · obtain ⟨after, next, call, ratio, keeps, takesOver⟩ :=
          sample_takesOver proper holds draw (Nat.le_of_not_lt short) small
            fun one => short (one ▸ plural one)
        exact ⟨_, some after, next, call, ratio, keeps, .later takesOver⟩

/-- No call fails, and each of them is such a step. -/
theorem run_calls (proper : Proper sampler.ratio) {state : Option (List Use)}
    (holds : sampler.Holds state) {calls : List (Draw numNodes × Nat)}
    (small : ∀ call ∈ calls, call.2 ≤ 2 ^ 53) (plural : ∀ call ∈ calls, Plural state call.2) :
    ∃ samples last sampler', sampler.run calls = some (samples.map .array, sampler') ∧
      sampler'.Holds last ∧
      Calls numNodes sampler.ratio (calls.map Prod.snd) state samples last := by
  induction calls generalizing sampler state with
  | nil => exact ⟨[], state, sampler, rfl, holds, .nil⟩
  | cons call calls ih =>
      obtain ⟨draw, n⟩ := call
      obtain ⟨own, others⟩ := List.forall_mem_cons.mp small
      obtain ⟨ownPlural, othersPlural⟩ := List.forall_mem_cons.mp plural
      obtain ⟨res, next, sampler', called, ratio, holds', step⟩ :=
        sample_called proper holds draw own ownPlural
      obtain ⟨samples, last, sampler'', ran, holds'', steps⟩ := ih (ratio ▸ proper) holds' others
        fun call member one => (othersPlural call member one).trans_le step.stateLength_le
      refine ⟨res :: samples, last, sampler'', ?_, holds'', .cons step (ratio ▸ steps)⟩
      rw [run, called]
      simp only [Option.bind_eq_bind, Option.bind_some, ran, List.map_cons]

end ReNegLinkSampler

/-! ## Where the nodes come from -/

/-- The samples that are kept, oldest first: those that are at least as long as all
before. -/
def kept : Nat → List (List Nat) → List (List Nat)
  | _, [] => []
  | longest, res :: samples =>
      if longest ≤ res.length then res :: kept res.length samples else kept longest samples

/-- A node that was used again some times is in as many samples before the last one. The
samples are listed newest first. -/
structure Traced (numNodes : Nat) (history : List (List Nat)) (uses : List Use) : Prop where
  last : history.head? = some (uses.map Use.node)
  nodes : ∀ use ∈ uses, use.node < numNodes
  since : ∀ use ∈ uses, use.ttl < history.length ∧
    ∀ i ≤ use.ttl, ∃ sample, history[i]? = some sample ∧ use.node ∈ sample

/-- The same before the first call. -/
def TracedState (numNodes : Nat) (history : List (List Nat)) : Option (List Use) → Prop
  | none => history = []
  | some uses => Traced numNodes history uses

/-- A sample has the part of the one before that was taken over. -/
def Overlaps (ratio : Ratio) (history : List (List Nat)) : Prop :=
  ∀ (i : Nat) next before, history[i]? = some next → history[i + 1]? = some before →
    ratio.part before.length ≤ next.countP fun v => v ∈ before

section Steps

variable {numNodes : Nat} {ratio : Ratio} {n : Nat}

/-- As many nodes as are taken over are in the sample before. -/
theorem TakesOver.overlap {count : Nat} {before after : List Use}
    (takesOver : TakesOver numNodes count n before after) :
    count ≤ (after.map Use.node).countP fun v => v ∈ before.map Use.node := by
  obtain ⟨⟨young, fresh, largest, perm, -, -⟩, few, -⟩ := takesOver
  have all : ((young.map Use.again).map Use.node).countP (fun v => v ∈ before.map Use.node) =
      ((young.map Use.again).map Use.node).length := by
    refine List.countP_eq_length.mpr fun v member => ?_
    obtain ⟨_, inYoung, rfl⟩ := List.mem_map.mp member
    obtain ⟨use, own, rfl⟩ := List.mem_map.mp inYoung
    have inBefore : use.node ∈ before.map Use.node := List.mem_map_of_mem (largest.mem own)
    exact decide_eq_true inBefore
  have length := largest.length
  rw [(perm.map Use.node).countP_eq, List.map_append, List.countP_append, all, List.length_map,
    List.length_map]
  omega

/-- The nodes of a sample that takes over a part of the one before. -/
theorem TakesOver.traced {count : Nat} {before after : List Use}
    (takesOver : TakesOver numNodes count n before after) {history : List (List Nat)}
    (traced : Traced numNodes history before) :
    Traced numNodes (after.map Use.node :: history) after := by
  obtain ⟨⟨young, fresh, largest, perm, -, nodes⟩, -, -⟩ := takesOver
  -- a node is one of the sample before or it is new
  have source : ∀ use ∈ after, (∃ old ∈ before, use = old.again) ∨ ∃ v < numNodes, use = ⟨v, 0⟩ := by
    intro use member
    rcases List.mem_append.mp (perm.mem_iff.mp member) with reused | drawn
    · obtain ⟨old, own, rfl⟩ := List.mem_map.mp reused
      exact .inl ⟨old, largest.mem own, rfl⟩
    · obtain ⟨v, own, rfl⟩ := List.mem_map.mp drawn
      exact .inr ⟨v, nodes v own, rfl⟩
  refine ⟨rfl, fun use member => ?_, fun use member => ?_⟩
  · rcases source use member with ⟨old, own, rfl⟩ | ⟨v, bound, rfl⟩
    · exact traced.nodes old own
    · exact bound
  · have newest : use.node ∈ after.map Use.node := List.mem_map_of_mem member
    rcases source use member with ⟨old, own, rfl⟩ | ⟨v, -, rfl⟩
    · obtain ⟨bound, since⟩ := traced.since old own
      refine ⟨Nat.succ_lt_succ bound, fun i within => ?_⟩
      cases i with
      | zero => exact ⟨_, rfl, newest⟩
      | succ i => exact since i (Nat.le_of_succ_le_succ within)
    · refine ⟨Nat.succ_pos _, fun i within => ?_⟩
      obtain rfl := Nat.le_zero.mp within
      exact ⟨_, rfl, newest⟩

theorem TakesOver.overlaps {before after : List Use}
    (takesOver : TakesOver numNodes (ratio.part before.length) n before after)
    {history : List (List Nat)} (traced : Traced numNodes history before)
    (overlaps : Overlaps ratio history) : Overlaps ratio (after.map Use.node :: history) := by
  intro i next last atNext atLast
  cases i with
  | zero =>
      obtain rfl := Option.some.inj atNext
      have own : some (before.map Use.node) = some last := by
        rw [← traced.last, List.head?_eq_getElem?]
        exact atLast
      obtain rfl := Option.some.inj own
      rw [List.length_map]
      exact takesOver.overlap
  | succ i => exact overlaps i next last atNext atLast

/-- One call. Its sample is kept when it is not shorter than the last one. -/
theorem Called.traced {state next : Option (List Use)} {res : List Nat}
    (call : Called numNodes ratio n state res next) {history : List (List Nat)}
    (traced : TracedState numNodes history state) (overlaps : Overlaps ratio history) :
    res.length = n ∧ (∀ v ∈ res, v < numNodes) ∧
      ((res.length < stateLength state ∧ next = state) ∨
        (stateLength state ≤ res.length ∧ stateLength next = res.length ∧
          TracedState numNodes (res :: history) next ∧ Overlaps ratio (res :: history))) := by
  cases call with
  | short short length nodes => exact ⟨length, nodes, .inl ⟨length ▸ short, rfl⟩⟩
  | first length nodes =>
      obtain rfl : history = [] := traced
      refine ⟨length, nodes, .inr ⟨Nat.zero_le _, List.length_map _, ⟨?_, ?_, ?_⟩, ?_⟩⟩
      · simp [Function.comp_def]
      · intro use member
        obtain ⟨v, own, rfl⟩ := List.mem_map.mp member
        exact nodes v own
      · intro use member
        obtain ⟨v, own, rfl⟩ := List.mem_map.mp member
        refine ⟨Nat.succ_pos _, fun i within => ?_⟩
        obtain rfl := Nat.le_zero.mp within
        exact ⟨_, rfl, own⟩
      · intro i next last _ atLast
        cases atLast
  | later takesOver =>
      have length := takesOver.length
      have after := takesOver.traced traced
      refine ⟨(List.length_map _).trans length, fun v member => ?_, .inr ⟨?_, ?_, after, ?_⟩⟩
      · obtain ⟨use, own, rfl⟩ := List.mem_map.mp member
        exact after.nodes use own
      · rw [List.length_map, length]
        exact takesOver.fits.2
      · exact (List.length_map _).symm
      · exact takesOver.overlaps traced overlaps

/-- All calls. -/
theorem Calls.traced {sizes : List Nat} {state last : Option (List Use)}
    {samples : List (List Nat)} (calls : Calls numNodes ratio sizes state samples last)
    {history : List (List Nat)} (traced : TracedState numNodes history state)
    (overlaps : Overlaps ratio history) :
    samples.map List.length = sizes ∧ (∀ sample ∈ samples, ∀ v ∈ sample, v < numNodes) ∧
      TracedState numNodes ((kept (stateLength state) samples).reverse ++ history) last ∧
      Overlaps ratio ((kept (stateLength state) samples).reverse ++ history) := by
  induction calls generalizing history with
  | nil => exact ⟨rfl, by simp, traced, overlaps⟩
  | @cons n sizes state next last res samples call rest ih =>
      obtain ⟨length, nodes, step⟩ := call.traced traced overlaps
      rcases step with ⟨short, rfl⟩ | ⟨long, nextLength, traced', overlaps'⟩
      · obtain ⟨lengths, others, after⟩ := ih traced overlaps
        rw [kept, if_neg (Nat.not_le.mpr short)]
        exact ⟨by rw [List.map_cons, length, lengths], List.forall_mem_cons.mpr ⟨nodes, others⟩,
          after⟩
      · obtain ⟨lengths, others, after⟩ := ih traced' overlaps'
        rw [kept, if_pos long, List.reverse_cons, List.append_assoc, ← nextLength]
        exact ⟨by rw [List.map_cons, length, lengths], List.forall_mem_cons.mpr ⟨nodes, others⟩,
          after⟩

end Steps

/-! ## The ages of the nodes -/

section Ages

variable {numNodes : Nat} {ratio : Ratio} {n : Nat}

/-- Of the `n` nodes of a sample that is the `count`-th kept one, as many as possible were
used again at most `j` times: `n - part n` were new in each of the last samples. -/
structure Aged (ratio : Ratio) (n count : Nat) (uses : List Use) : Prop where
  length : uses.length = n
  ages : ∀ j, uses.countP (fun use => use.ttl ≤ j) =
    if count ≤ j + 1 then n else min n ((j + 1) * (n - ratio.part n))

/-- The first sample. -/
theorem aged_first (ratio : Ratio) (res : List Nat) :
    Aged ratio res.length 1 (res.map fun v => ⟨v, 0⟩) where
  length := List.length_map _
  ages := fun j => by simp [Function.comp_def]

/-- A sample of as many nodes. -/
theorem TakesOver.aged {count : Nat} {before after : List Use}
    (takesOver : TakesOver numNodes (ratio.part n) n before after) (aged : Aged ratio n count before)
    (positive : 0 < count) : Aged ratio n (count + 1) after := by
  have length := takesOver.length
  obtain ⟨⟨young, fresh, largest, perm, new, -⟩, few, -⟩ := takesOver
  rw [aged.length] at few
  refine ⟨length, fun j => ?_⟩
  have drawn : (fresh.map fun v => (⟨v, 0⟩ : Use)).countP (fun use => use.ttl ≤ j) =
      n - ratio.part n := by
    rw [← new]
    simp [Function.comp_def]
  rw [perm.countP_eq, List.countP_append, drawn, List.countP_map]
  cases j with
  | zero =>
      have older : young.countP ((fun use => decide (use.ttl ≤ 0)) ∘ Use.again) = 0 :=
        List.countP_eq_zero.mpr fun use _ => by simp [Use.again]
      rw [older, if_neg (by omega)]
      omega
  | succ j =>
      have younger : young.countP ((fun use => decide (use.ttl ≤ j + 1)) ∘ Use.again) =
          young.countP fun use => use.ttl ≤ j :=
        List.countP_congr fun use _ => by simp [Use.again]
      have upward : ∀ x y : Use, OrderDual.toDual y.ttl ≤ OrderDual.toDual x.ttl →
          decide (y.ttl ≤ j) = true → decide (x.ttl ≤ j) = true := fun x y order small =>
        decide_eq_true (Nat.le_trans (OrderDual.toDual_le_toDual.mp order) (of_decide_eq_true small))
      rw [younger, largest.countP upward, aged.ages j, Nat.succ_mul (j + 1)]
      by_cases early : count ≤ j + 1
      · rw [if_pos early, if_pos (Nat.succ_le_succ early)]
        omega
      · rw [if_neg early, if_neg (by omega)]
        omega

/-- Calls for at most as many nodes. -/
theorem Calls.aged {sizes : List Nat} {state last : Option (List Use)} {samples : List (List Nat)}
    (calls : Calls numNodes ratio sizes state samples last) (small : ∀ size ∈ sizes, size ≤ n)
    {count : Nat} {uses : List Use} (own : state = some uses) (aged : Aged ratio n count uses)
    (positive : 0 < count) :
    ∃ uses', last = some uses' ∧ Aged ratio n (count + (kept n samples).length) uses' := by
  induction calls generalizing count uses with
  | nil => exact ⟨uses, own, aged⟩
  | @cons size sizes state next last res samples call rest ih =>
      obtain ⟨bound, others⟩ := List.forall_mem_cons.mp small
      subst own
      cases call with
      | short short length nodes =>
          rw [kept, if_neg (by rw [length, ← aged.length]; exact Nat.not_le.mpr short)]
          exact ih others rfl aged positive
      | @later _ after takesOver =>
          obtain rfl : size = n :=
            le_antisymm bound (aged.length.symm.trans_le takesOver.fits.2)
          have length := takesOver.length
          rw [aged.length] at takesOver
          obtain ⟨uses', ended, aged'⟩ := ih others rfl (takesOver.aged aged positive)
            (Nat.succ_pos count)
          refine ⟨uses', ended, ?_⟩
          have longEnough : size ≤ (after.map Use.node).length := by
            rw [List.length_map, length]
          rw [kept, if_pos longEnough, List.length_cons, List.length_map, length]
          rwa [Nat.add_assoc, Nat.add_comm 1] at aged'

/-- A node is not used again for long. -/
theorem Aged.bound {count : Nat} {uses : List Use} (aged : Aged ratio n count uses) {use : Use}
    (member : use ∈ uses) : use.ttl * (n - ratio.part n) < n := by
  cases age : use.ttl with
  | zero =>
      rw [Nat.zero_mul, ← aged.length]
      exact List.length_pos_of_mem member
  | succ j =>
      have older : uses.countP (fun use => use.ttl ≤ j) < n := by
        rw [← aged.length]
        refine lt_of_le_of_ne List.countP_le_length fun all => ?_
        have young := of_decide_eq_true (List.countP_eq_length.mp all use member)
        omega
      rw [aged.ages j] at older
      split at older
      · exact absurd older (Nat.lt_irrefl n)
      · omega

end Ages

/-! ## The sampler's runs -/

namespace ReNegLinkSampler

variable {numNodes : Nat} {ratio : Ratio}

/-- Whatever is drawn, no call of a sampler fails that is not asked for a single node, and a
call returns as many nodes as it was asked for. The last sample that is not shorter than those
before is kept; a node that is marked as used again some times is in as many samples that were
kept before, and at least the part of a sample that the ratio says is in the next one. -/
theorem run_reuse (proper : Proper ratio) {calls : List (Draw numNodes × Nat)}
    (small : ∀ call ∈ calls, call.2 ≤ 2 ^ 53) (plural : ∀ call ∈ calls, call.2 ≠ 1) :
    ∃ samples last, (init numNodes ratio).run calls = some (samples.map .array, last) ∧
      samples.map List.length = calls.map Prod.snd ∧
      (∀ sample ∈ samples, ∀ v ∈ sample, v < numNodes) ∧
      last.preRes = (kept 0 samples).reverse.head?.map .array ∧
      (∀ res, last.preRes = some (.array res) → last.preTtl.length = res.length ∧
        ∀ (p : Nat) v ttl, res[p]? = some v → last.preTtl[p]? = some ttl →
          ttl < (kept 0 samples).length ∧
          ∀ i ≤ ttl, ∃ sample, (kept 0 samples).reverse[i]? = some sample ∧ v ∈ sample) ∧
      Overlaps ratio (kept 0 samples).reverse := by
  have start : (init numNodes ratio).Holds none := rfl
  obtain ⟨samples, state, last, ran, holds, steps⟩ := run_calls proper start small
    fun call member one => absurd one (plural call member)
  have untraced : TracedState numNodes [] none := rfl
  obtain ⟨lengths, nodes, traced, overlaps⟩ :=
    steps.traced untraced fun i next before atNext => by cases atNext
  rw [List.append_nil] at traced overlaps
  refine ⟨samples, last, ran, lengths, nodes, ?_, fun res own => ?_, overlaps⟩
  · cases state with
    | none =>
        have empty : (kept 0 samples).reverse = [] := traced
        rw [empty]
        exact holds
    | some uses =>
        have newest : (kept 0 samples).reverse.head? = some (uses.map Use.node) := traced.last
        rw [newest]
        exact holds.res
  · cases state with
    | none => exact absurd (own.symm.trans holds) (Option.some_ne_none _)
    | some uses =>
        obtain rfl := Indexed.array.inj (Option.some.inj (own.symm.trans holds.res))
        rw [holds.ttl, List.length_map, List.length_map]
        refine ⟨rfl, fun p v ttl atNode atTtl => ?_⟩
        rw [List.getElem?_map, Option.map_eq_some_iff] at atNode atTtl
        obtain ⟨use, inUses, rfl⟩ := atNode
        obtain ⟨use', inUses', rfl⟩ := atTtl
        obtain rfl := Option.some.inj (inUses.symm.trans inUses')
        have since := traced.since use (List.mem_of_getElem? inUses)
        rwa [List.length_reverse] at since

/-- When no call asks for more nodes than the first one, which is not for a single node, the
ages of the nodes are known exactly, whatever is drawn: a node is used again only so often that
the samples it is in would have new nodes for one sample in all. -/
theorem run_retires (proper : Proper ratio) {n : Nat} (bound : n ≤ 2 ^ 53) (plural : n ≠ 1)
    (draw : Draw numNodes) {calls : List (Draw numNodes × Nat)}
    (small : ∀ call ∈ calls, call.2 ≤ n) :
    ∃ samples last, (init numNodes ratio).run ((draw, n) :: calls) =
        some (samples.map .array, last) ∧
      (∀ j, last.preTtl.countP (fun ttl => ttl ≤ j) =
        if (kept 0 samples).length ≤ j + 1 then n else min n ((j + 1) * (n - ratio.part n))) ∧
      ∀ ttl ∈ last.preTtl, ttl * (n - ratio.part n) < n := by
  have start : (init numNodes ratio).Holds none := rfl
  obtain ⟨res, next, sampler, called, same, holds, step⟩ :=
    sample_called proper start draw bound fun one => absurd one plural
  cases step with
  | first length nodes =>
      have others : ∀ call ∈ calls,
          Plural (some (res.map fun v => (⟨v, 0⟩ : Use))) call.2 := by
        intro call member one
        have own := small call member
        rw [stateLength, List.length_map, length]
        omega
      obtain ⟨samples, state, last, ran, holds, rest⟩ := run_calls (same ▸ proper) holds
        (fun call member => (small call member).trans bound) others
      have own : sampler.ratio = ratio := same
      have young := aged_first sampler.ratio res
      rw [length] at young
      obtain ⟨uses, rfl, aged⟩ := rest.aged
        (fun size member => by
          obtain ⟨call, own, rfl⟩ := List.mem_map.mp member
          exact small call own)
        rfl young Nat.one_pos
      rw [own] at aged
      have count : (kept 0 (res :: samples)).length = 1 + (kept n samples).length := by
        rw [kept, if_pos (Nat.zero_le _), List.length_cons, length, Nat.add_comm]
      refine ⟨res :: samples, last, ?_, fun j => ?_, fun ttl member => ?_⟩
      · rw [run, called]
        simp only [Option.bind_eq_bind, Option.bind_some, ran, List.map_cons]
      · rw [holds.ttl, List.countP_map, count]
        exact aged.ages j
      · rw [holds.ttl] at member
        obtain ⟨use, own, rfl⟩ := List.mem_map.mp member
        exact aged.bound own

/-- The float64 0.9. -/
def nineTenths : Ratio := ⟨8106479329266893, 53⟩

theorem nineTenths_proper : Proper nineTenths := ⟨by decide, by decide⟩

example : nineTenths.part 60000 = 54000 := by decide

theorem inTurn_length (size : Nat) : ((List.range size).map (· % 3)).length = size :=
  (List.length_map _).trans List.length_range

theorem inTurn_lt (size v : Nat) (member : v ∈ (List.range size).map (· % 3)) : v < 3 := by
  obtain ⟨i, -, rfl⟩ := List.mem_map.mp member
  exact Nat.mod_lt i (Nat.succ_pos 2)

theorem unshuffled (size : Nat) : (List.range size).Perm (List.range size) := .refl _

/-- The nodes one after the other, and nothing is shuffled. -/
def inTurn : Draw 3 where
  randint := fun size => (List.range size).map (· % 3)
  randintLength := inTurn_length
  randintLt := inTurn_lt
  argsort := argsort
  argsortPerm := argsort_perm
  argsortSorted := argsort_pairwise
  randperm := List.range
  randpermPerm := unshuffled

/-- A shorter sample in between is not kept. -/
theorem run_reuse_inTurn :
    ∃ samples last, (init 3 nineTenths).run [(inTurn, 10), (inTurn, 4), (inTurn, 10)] =
        some (samples.map .array, last) ∧
      samples.map List.length = [10, 4, 10] ∧ Overlaps nineTenths (kept 0 samples).reverse := by
  have small : ∀ call ∈ [(inTurn, 10), (inTurn, 4), (inTurn, 10)], call.2 ≤ 2 ^ 53 := by decide
  have plural : ∀ call ∈ [(inTurn, 10), (inTurn, 4), (inTurn, 10)], call.2 ≠ 1 := by decide
  obtain ⟨samples, last, ran, lengths, -, -, -, overlaps⟩ :=
    run_reuse nineTenths_proper small plural
  exact ⟨samples, last, ran, lengths, overlaps⟩

theorem run_retires_inTurn :
    ∃ (samples : List (List Nat)) (last : ReNegLinkSampler 3),
      (init 3 nineTenths).run [(inTurn, 10), (inTurn, 1), (inTurn, 10)] =
        some (samples.map .array, last) ∧
      ∀ ttl ∈ last.preTtl, ttl * (10 - nineTenths.part 10) < 10 := by
  have small : ∀ call ∈ [(inTurn, 1), (inTurn, 10)], call.2 ≤ 10 := by decide
  obtain ⟨samples, last, ran, -, ages⟩ :=
    run_retires nineTenths_proper (by decide) (by decide) inTurn small
  exact ⟨samples, last, ran, ages⟩

/-- A second sample of one node is a scalar, and there is no third one. -/
example : ((init 3 nineTenths).run [(inTurn, 1), (inTurn, 1)]).map Prod.fst =
      some [.array [0], .scalar 0] ∧
    ((init 3 nineTenths).run [(inTurn, 1), (inTurn, 1), (inTurn, 1)]).isNone = true := by decide

end ReNegLinkSampler

end Dolphin.Sampler
