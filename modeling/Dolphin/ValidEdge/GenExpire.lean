import Dolphin.Graph.StreamGraph
import Dolphin.ValidEdge.Slots

/-!
# The expired edges of `gen_expire`

For every root of a block the kernel keeps the entries that one layer with the
fixed fanout can return and marks the older entries of the row. An edge expires
in the block in which the last of its entries is marked.

`Marked` says which entries the roots seen so far mark. It does not mention the
order of the roots, so the threads of the kernel may run in any order.
-/

namespace Dolphin.ValidEdge

open Dolphin.Graph Dolphin.Sampler Dolphin.Tensor

/-- The loop of `_CSRRowWiseSampleWithExpiredKernel` over the `count` first entries
behind `rowStart`, from the last one down to the first one that is marked. -/
def expireLoop (rowStart : Nat) : Nat → List Bool → List Bool
  | 0, expired => expired
  | count + 1, expired =>
      if expired.getD (rowStart + count) false then expired
      else expireLoop rowStart count (expired.set (rowStart + count) true)

/-- The thread of one root: the `picks` most recent entries are left alone. -/
def expireRow (g : TemporalCsr) (numPicks : Nat) (expired : List Bool) (root : Root) :
    List Bool :=
  let deg := g.recentEnd root.1 root.2 - g.rowStart root.1
  let picks := min deg numPicks
  expireLoop (g.rowStart root.1) (deg - picks) expired

/-- `sample_layer` in the mode `expire`, whose samples are not used: `fan_nums` has one layer. -/
def sampleExpire (g : TemporalCsr) (numPicks : Nat) (roots : List Root) (expired : List Bool) :
    List Bool :=
  roots.foldl (expireRow g numPicks) expired

/-- `fan_nums[0]`. -/
def expireFanNum : Nat := 10

/-- `expired` and `eid_flag`. -/
structure ExpireState where
  expired : List Bool
  eidFlag : List Nat

/-- No entry is marked, and `eid_flag` counts the entries of each edge. -/
def ExpireState.initial (g : TemporalCsr) : ExpireState where
  expired := List.replicate g.indices.length false
  eidFlag := (unique g.totaleid).map fun eid => g.totaleid.count eid

/-- The roots of a span of edges. -/
def spanRoots (stream : EdgeStream) (span : Nat × Nat) : List Root :=
  let times := slice stream.time span.1 span.2
  (slice stream.src span.1 span.2 ++ slice stream.dst span.1 span.2).zip (times ++ times)

/-- The entries a block marks and how often `exp_eids` has each edge, applied to the counters. -/
def ExpireState.block (g : TemporalCsr) (stream : EdgeStream) (state : ExpireState)
    (span : Nat × Nat) : ExpireState :=
  let expired := sampleExpire g expireFanNum (spanRoots stream span) state.expired
  let expEids := gather g.totaleid (nonzero (List.zipWith (· ^^ ·) expired state.expired))
  let uniqueEids := unique expEids
  { expired := expired
    eidFlag := indexAssign state.eidFlag uniqueEids
      (uniqueEids.map fun eid => state.eidFlag.getD eid 0 - expEids.count eid) }

/-- `exp_eids`: the edges whose counter the block changed to zero. -/
def expEids (before after : ExpireState) : List Nat :=
  nonzero (List.zipWith (fun flag clone => flag != clone && flag == 0) after.eidFlag before.eidFlag)

/-- `left` and `right` of the blocks, until the edges end. -/
def blockSpans (batchSize edgeEnd : Nat) : Nat → Nat → List (Nat × Nat)
  | 0, _ => []
  | fuel + 1, left =>
      let right := min edgeEnd (left + batchSize)
      if right ≤ left then [] else (left, right) :: blockSpans batchSize edgeEnd fuel right

/-- The loop of `gen_expire`: for each block its edges and `exp_eids`. -/
def expireBlocks (g : TemporalCsr) (stream : EdgeStream) :
    ExpireState → List (Nat × Nat) → List (Nat × List Nat)
  | _, [] => []
  | state, span :: spans =>
      let after := state.block g stream span
      (span.2 - span.1, expEids state after) :: expireBlocks g stream after spans

/-- The blocks of `gen_expire` on a dataset. -/
def datasetBlocks (g : TemporalCsr) (stream : EdgeStream) (batchSize : Nat) :
    List (Nat × List Nat) :=
  expireBlocks g stream (.initial g)
    (blockSpans batchSize stream.eid.length stream.eid.length 0)

/-! ## Marked entries -/

/-- The fixed fanout around a time in the row of a root of the list leaves the entry behind. -/
def Marked (g : TemporalCsr) (numPicks : Nat) (roots : List Root) (p : Nat) : Prop :=
  ∃ root ∈ roots, g.InRow root.1 p ∧ p + numPicks < g.recentEnd root.1 root.2

theorem Marked.mono {g : TemporalCsr} {numPicks p : Nat} {roots more : List Root}
    (marked : Marked g numPicks roots p) (included : ∀ root ∈ roots, root ∈ more) :
    Marked g numPicks more p := by
  obtain ⟨root, member, inRow, behind⟩ := marked
  exact ⟨root, included root member, inRow, behind⟩

theorem initial_unmarked (count p : Nat) : (List.replicate count false).getD p false = false := by
  rw [List.getD_eq_getElem?_getD, List.getElem?_replicate]
  split <;> rfl

@[simp] theorem expireLoop_length (rowStart count : Nat) (expired : List Bool) :
    (expireLoop rowStart count expired).length = expired.length := by
  induction count generalizing expired with
  | zero => rfl
  | succ count ih =>
      rw [expireLoop]
      split
      · rfl
      · rw [ih, List.length_set]

/-- Where the marked part of a row is its beginning, stopping at a marked entry
leaves nothing out. -/
theorem expireLoop_spec {rowStart count : Nat} {expired : List Bool}
    (room : 0 < count → rowStart + count ≤ expired.length)
    (closed : ∀ p q, rowStart ≤ p → p ≤ q → q < rowStart + count →
      expired.getD q false = true → expired.getD p false = true) (p : Nat) :
    (expireLoop rowStart count expired).getD p false = true ↔
      expired.getD p false = true ∨ rowStart ≤ p ∧ p < rowStart + count := by
  induction count generalizing expired with
  | zero =>
      simp only [expireLoop, Nat.add_zero]
      constructor
      · exact Or.inl
      · rintro (marked | inside)
        · exact marked
        · omega
  | succ count ih =>
      rw [expireLoop]
      split
      case isTrue stop =>
          constructor
          · exact Or.inl
          · rintro (marked | ⟨low, high⟩)
            · exact marked
            · exact closed p (rowStart + count) low (by omega) (by omega) stop
      case isFalse go =>
          have same : ∀ q, q ≠ rowStart + count →
              (expired.set (rowStart + count) true).getD q false = expired.getD q false := by
            intro q other
            simp [List.getD_eq_getElem?_getD, List.getElem?_set_ne other.symm]
          have own : (expired.set (rowStart + count) true).getD (rowStart + count) false = true := by
            have bound : rowStart + count < expired.length := room (Nat.succ_pos count)
            simp [List.getD_eq_getElem?_getD, bound]
          rw [ih (fun _ => by rw [List.length_set]; have := room (Nat.succ_pos count); omega)]
          · by_cases last : p = rowStart + count
            · subst last
              simp only [own, true_or, true_iff]
              exact Or.inr (by omega)
            · rw [same p last]
              constructor
              · exact Or.imp_right (by omega)
              · exact Or.imp_right (by omega)
          · intro q r low order high
            rw [same q (by omega), same r (by omega)]
            exact closed q r low order (by omega)

theorem expireRow_length (g : TemporalCsr) (numPicks : Nat) (expired : List Bool) (root : Root) :
    (expireRow g numPicks expired root).length = expired.length := expireLoop_length ..

/-- The marks of a thread stay in the tensor. -/
theorem expireRow_room {g : TemporalCsr} (formed : g.WellFormed) (numPicks : Nat)
    {expired : List Bool} (length : expired.length = g.totaleid.length) (root : Root)
    (some_ : 0 < g.recentEnd root.1 root.2 - g.rowStart root.1 -
      min (g.recentEnd root.1 root.2 - g.rowStart root.1) numPicks) :
    g.rowStart root.1 + (g.recentEnd root.1 root.2 - g.rowStart root.1 -
      min (g.recentEnd root.1 root.2 - g.rowStart root.1) numPicks) ≤ expired.length := by
  obtain ⟨start, bounded, -⟩ := TemporalCsr.recentEnd_spec (formed.sorted root.1) root.2
  have inRow : g.InRow root.1 (g.rowStart root.1) := ⟨Nat.le_refl _, by omega⟩
  have inside := (TemporalCsr.rowEnd_le_length formed.last formed.rows inRow).2
  rw [length]
  omega

/-- One more thread. -/
theorem expireRow_getD {g : TemporalCsr} (formed : g.WellFormed) {numPicks : Nat}
    {roots : List Root} {expired : List Bool} (length : expired.length = g.totaleid.length)
    (marked : ∀ p, expired.getD p false = true ↔ Marked g numPicks roots p) (root : Root)
    (p : Nat) :
    (expireRow g numPicks expired root).getD p false = true ↔
      Marked g numPicks (roots ++ [root]) p := by
  obtain ⟨start, bounded, -⟩ := TemporalCsr.recentEnd_spec (formed.sorted root.1) root.2
  have range : ∀ p, g.InRow root.1 p ∧ p + numPicks < g.recentEnd root.1 root.2 ↔
      g.rowStart root.1 ≤ p ∧ p < g.rowStart root.1 +
        (g.recentEnd root.1 root.2 - g.rowStart root.1 -
          min (g.recentEnd root.1 root.2 - g.rowStart root.1) numPicks) := by
    intro p
    unfold TemporalCsr.InRow
    omega
  have room := expireRow_room formed numPicks length root
  rw [expireRow, expireLoop_spec room, marked, ← range]
  · simp only [Marked, List.mem_append, List.mem_singleton]
    constructor
    · rintro (⟨other, member, found⟩ | found)
      · exact ⟨other, Or.inl member, found⟩
      · exact ⟨root, Or.inr rfl, found⟩
    · rintro ⟨other, member | rfl, found⟩
      · exact Or.inl ⟨other, member, found⟩
      · exact Or.inr found
  · intro p q low order high later
    rw [marked] at later ⊢
    obtain ⟨other, member, inRow, behind⟩ := later
    have own : g.InRow root.1 q := ((range q).mpr ⟨by omega, high⟩).1
    obtain same : other.1 = root.1 := TemporalCsr.inRow_unique formed.rows inRow own
    refine ⟨other, member, ?_, by omega⟩
    rw [same]
    exact ⟨low, Nat.lt_of_le_of_lt order own.2⟩

@[simp] theorem sampleExpire_length (g : TemporalCsr) (numPicks : Nat) (roots : List Root)
    (expired : List Bool) : (sampleExpire g numPicks roots expired).length = expired.length := by
  unfold sampleExpire
  induction roots generalizing expired with
  | nil => rfl
  | cons root roots ih => rw [List.foldl_cons, ih, expireRow_length]

/-- The threads of some roots, one after the other. -/
theorem sampleExpire_getD {g : TemporalCsr} (formed : g.WellFormed) {numPicks : Nat}
    {done roots : List Root} {expired : List Bool} (length : expired.length = g.totaleid.length)
    (marked : ∀ p, expired.getD p false = true ↔ Marked g numPicks done p) (p : Nat) :
    (sampleExpire g numPicks roots expired).getD p false = true ↔
      Marked g numPicks (done ++ roots) p := by
  induction roots generalizing done expired with
  | nil => simpa [sampleExpire] using marked p
  | cons root roots ih =>
      have next := expireRow_getD formed length marked root
      have kept := (expireRow_length g numPicks expired root).trans length
      have rest := ih kept next
      rwa [List.append_assoc] at rest

variable {stream : EdgeStream} (g : StreamGraph stream)

/-- What the `expired` tensor holds when the threads of some roots are done. -/
structure MarkedBy (numPicks : Nat) (roots : List Root) (expired : List Bool) : Prop where
  length : expired.length = g.totaleid.length
  marked : ∀ p, expired.getD p false = true ↔ Marked g.toTemporalCsr numPicks roots p

variable {g}

/-- The threads of a block. -/
theorem MarkedBy.sampleExpire {numPicks : Nat} {done roots : List Root} {expired : List Bool}
    (tracked : MarkedBy g numPicks done expired) :
    MarkedBy g numPicks (done ++ roots)
      (sampleExpire g.toTemporalCsr numPicks roots expired) where
  length := by rw [sampleExpire_length, tracked.length]
  marked := sampleExpire_getD g.wellFormed tracked.length tracked.marked

end Dolphin.ValidEdge
