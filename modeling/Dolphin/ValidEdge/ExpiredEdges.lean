import Dolphin.ValidEdge.GenExpire
import Dolphin.ValidEdge.SlotReplay

/-!
# Which edges have expired

`eid_flag` counts the entries of an edge that no root has marked. The edges that
have expired up to a block are those without such an entry, and the blocks of
`gen_expire` are a history the slot allocator can follow.
-/

namespace Dolphin.ValidEdge

open Dolphin.Graph Dolphin.Sampler Dolphin.Tensor

variable {stream : EdgeStream} (g : StreamGraph stream)

/-! ## The counters -/

/-- The entries of an edge that are not marked. -/
def unmarkedEntries (expired : List Bool) (e : Nat) : Nat :=
  (List.range g.totaleid.length).countP fun p => g.eidAt p == e && !expired.getD p false

/-- All entries of the edge are marked by the roots. -/
def Expired (roots : List Root) (e : Nat) : Prop :=
  e < stream.eid.length ∧
    ∀ p < g.totaleid.length, g.eidAt p = e → Marked g.toTemporalCsr expireFanNum roots p

/-- What holds of the tensors after the blocks with the given roots. -/
structure Tracks (roots : List Root) (state : ExpireState) : Prop where
  marked : MarkedBy g expireFanNum roots state.expired
  counters : state.eidFlag.length = stream.eid.length
  counter : ∀ e < stream.eid.length, state.eidFlag.getD e 0 = unmarkedEntries g state.expired e

variable {g}

/-- A counter is zero when its edge has expired. -/
theorem Tracks.counter_eq_zero {roots : List Root} {state : ExpireState}
    (tracks : Tracks g roots state) {e : Nat} (known : e < stream.eid.length) :
    state.eidFlag.getD e 0 = 0 ↔ Expired g roots e := by
  rw [tracks.counter e known, unmarkedEntries, List.countP_eq_zero]
  simp only [List.mem_range, Bool.and_eq_true, beq_iff_eq, Bool.not_eq_true', not_and,
    Bool.not_eq_false, tracks.marked.marked, Expired, known, true_and]

/-- A count over two disjoint conditions. -/
theorem countP_split {ι : Type*} {whole left right : ι → Bool} {xs : List ι}
    (apart : ∀ x ∈ xs, whole x = (left x || right x) ∧ (left x && right x) = false) :
    xs.countP whole = xs.countP left + xs.countP right := by
  induction xs with
  | nil => rfl
  | cons x xs ih =>
      obtain ⟨first, rest⟩ := List.forall_mem_cons.mp apart
      rw [List.countP_cons, List.countP_cons, List.countP_cons, ih rest, first.1]
      cases inLeft : left x <;> cases inRight : right x <;> simp_all <;> omega

/-- The counters after a block, before they are compared with the marks. -/
theorem block_counter (state : ExpireState) (span : Nat × Nat) {e : Nat}
    (known : e < state.eidFlag.length) :
    (state.block g.toTemporalCsr stream span).eidFlag.getD e 0 = state.eidFlag.getD e 0 -
      (gather g.totaleid (nonzero (List.zipWith (· ^^ ·)
        (state.block g.toTemporalCsr stream span).expired state.expired))).count e := by
  unfold ExpireState.block
  simp only
  generalize gather g.totaleid (nonzero _) = expEids
  by_cases counted : e ∈ expEids
  · have written := @indexAssign_column Nat Nat (unique expEids) id
      (fun eid => state.eidFlag.getD eid 0 - expEids.count eid)
      (by simpa using unique_nodup expEids) state.eidFlag e (mem_unique.mpr counted) known
    simp only [List.map_id, id_eq] at written
    simp only [List.getD_eq_getElem?_getD] at written ⊢
    rw [written, Option.getD_some]
  · rw [List.count_eq_zero_of_not_mem counted, Nat.sub_zero]
    simp only [List.getD_eq_getElem?_getD]
    rw [indexAssign_other (by simpa using counted)]

/-- The entries a block marks are what its edges lose. -/
theorem unmarkedEntries_split {before after : List Bool} (length : before.length = after.length)
    (sized : after.length = g.totaleid.length)
    (grown : ∀ p, before.getD p false = true → after.getD p false = true) (e : Nat) :
    unmarkedEntries g before e =
      (gather g.totaleid (nonzero (List.zipWith (· ^^ ·) after before))).count e +
        unmarkedEntries g after e := by
  have xor : ∀ p < after.length, (List.zipWith (· ^^ ·) after before).getD p false =
      (after.getD p false ^^ before.getD p false) := by
    intro p bound
    simp [List.getD_eq_getElem?_getD, bound, length]
  rw [count_gather_nonzero, List.length_zipWith, length, Nat.min_self, sized]
  refine countP_split fun p member => ?_
  have bound : p < after.length := by
    rw [sized]
    exact List.mem_range.mp member
  rw [xor p bound]
  have increased := grown p
  change (g.eidAt p == e && _) = _ ∧ _
  cases old : before.getD p false <;> cases new : after.getD p false <;>
    cases own : (g.eidAt p == e) <;> simp_all [TemporalCsr.eidAt]

/-- One more block. -/
theorem Tracks.block {roots : List Root} {state : ExpireState} (tracks : Tracks g roots state)
    (span : Nat × Nat) :
    Tracks g (roots ++ spanRoots stream span) (state.block g.toTemporalCsr stream span) := by
  have marked : MarkedBy g expireFanNum (roots ++ spanRoots stream span)
      (state.block g.toTemporalCsr stream span).expired := tracks.marked.sampleExpire
  have counters : (state.block g.toTemporalCsr stream span).eidFlag.length = stream.eid.length := by
    simpa [ExpireState.block] using tracks.counters
  refine ⟨marked, counters, fun e known => ?_⟩
  have grown : ∀ p, state.expired.getD p false = true →
      (state.block g.toTemporalCsr stream span).expired.getD p false = true := by
    intro p old
    rw [tracks.marked.marked] at old
    exact (marked.marked p).mpr (old.mono fun root member => List.mem_append_left _ member)
  have lost := unmarkedEntries_split (g := g) (tracks.marked.length.trans marked.length.symm)
    marked.length grown e
  rw [block_counter state span (by rw [tracks.counters]; exact known), tracks.counter e known]
  omega

/-- The tensors before the first block. -/
theorem Tracks.initial : Tracks g [] (.initial g.toTemporalCsr) := by
  have ids : unique g.totaleid = List.range stream.eid.length := by
    refine unique_eq_range fun e => ⟨fun member => ?_, g.present e⟩
    obtain ⟨p, bound, own⟩ := List.getElem_of_mem member
    have known := (g.entry p bound).1
    simpa [TemporalCsr.eidAt, bound, own] using known
  refine ⟨⟨?_, ?_⟩, ?_, ?_⟩
  · simp [ExpireState.initial, g.indicesLength]
  · intro p
    simp only [ExpireState.initial, initial_unmarked, Marked]
    simp
  · simp [ExpireState.initial, ids]
  · intro e known
    have counted : (gather g.totaleid (List.range g.totaleid.length)).count e =
        unmarkedEntries g (List.replicate g.indices.length false) e := by
      rw [gather, List.count, List.countP_map, unmarkedEntries]
      apply List.countP_congr
      intro p member
      simp only [Function.comp_apply, TemporalCsr.eidAt, initial_unmarked, Bool.not_false,
        Bool.and_true]
      rfl
    rw [gather_range] at counted
    simpa [ExpireState.initial, ids, known] using counted

/-! ## The expired sets -/

/-- Marks of more roots expire no less. -/
theorem Expired.mono {roots more : List Root} {e : Nat} (expired : Expired g roots e)
    (included : ∀ root ∈ roots, root ∈ more) : Expired g more e :=
  ⟨expired.1, fun p bound own => (expired.2 p bound own).mono included⟩

/-- Without roots no edge has expired. -/
theorem not_expired_nil (e : Nat) : ¬Expired g [] e := by
  rintro ⟨known, marked⟩
  obtain ⟨p, bound, own⟩ := List.getElem_of_mem (g.present e known)
  obtain ⟨root, member, -⟩ := marked p bound (by simpa [TemporalCsr.eidAt, bound] using own)
  exact List.not_mem_nil member

/-- `exp_eids` are the edges that expire in the block. -/
theorem mem_expEids {roots : List Root} {state : ExpireState} (tracks : Tracks g roots state)
    (span : Nat × Nat) (e : Nat) :
    e ∈ expEids state (state.block g.toTemporalCsr stream span) ↔
      Expired g (roots ++ spanRoots stream span) e ∧ ¬Expired g roots e := by
  have after := tracks.block span
  have lengths : (state.block g.toTemporalCsr stream span).eidFlag.length =
      state.eidFlag.length := after.counters.trans tracks.counters.symm
  rw [expEids, mem_nonzero]
  by_cases known : e < stream.eid.length
  · have old := tracks.counter_eq_zero known
    have new := after.counter_eq_zero known
    have inOld : e < state.eidFlag.length := by rw [tracks.counters]; exact known
    have inNew : e < (state.block g.toTemporalCsr stream span).eidFlag.length := by
      rw [lengths]; exact inOld
    rw [← old, ← new]
    simp only [List.getElem?_zipWith, List.getElem?_eq_getElem inOld,
      List.getElem?_eq_getElem inNew, List.getD_eq_getElem?_getD, Option.getD_some,
      Option.some.injEq, Bool.and_eq_true, bne_iff_ne, beq_iff_eq]
    omega
  · constructor
    · intro found
      have bound := (List.getElem?_eq_some_iff.mp found).1
      simp only [List.length_zipWith, after.counters, tracks.counters, Nat.min_self] at bound
      exact absurd bound known
    · rintro ⟨expired, -⟩
      exact absurd expired.1 known

/-- The edges that have expired after some blocks, over any number of them. -/
theorem mem_expiredBy {roots : List Root} {state : ExpireState} (tracks : Tracks g roots state)
    (spans : List (Nat × Nat)) (e : Nat) :
    e ∈ expiredBy (expireBlocks g.toTemporalCsr stream state spans) ↔
      Expired g (roots ++ spans.flatMap (spanRoots stream)) e ∧ ¬Expired g roots e := by
  induction spans generalizing roots state with
  | nil =>
      simp [expireBlocks, expiredBy]
  | cons span spans ih =>
      have included : Expired g roots e → Expired g (roots ++ spanRoots stream span) e :=
        fun expired => expired.mono fun root member => List.mem_append_left _ member
      have finally_ : Expired g (roots ++ spanRoots stream span) e →
          Expired g (roots ++ spanRoots stream span ++ spans.flatMap (spanRoots stream)) e :=
        fun expired => expired.mono fun root member => List.mem_append_left _ member
      have rest := ih (tracks.block span)
      have first := mem_expEids tracks span e
      simp only [expiredBy] at rest
      simp only [expireBlocks, expiredBy, List.flatMap_cons, List.mem_append, first, rest,
        ← List.append_assoc]
      constructor
      · rintro (⟨now, before⟩ | ⟨later, now⟩)
        · exact ⟨finally_ now, before⟩
        · exact ⟨later, fun before => now (included before)⟩
      · rintro ⟨later, before⟩
        by_cases now : Expired g (roots ++ spanRoots stream span) e
        · exact Or.inl ⟨now, before⟩
        · exact Or.inr ⟨later, now⟩

theorem expireBlocks_take (state : ExpireState) (spans : List (Nat × Nat)) (count : Nat) :
    (expireBlocks g.toTemporalCsr stream state spans).take count =
      expireBlocks g.toTemporalCsr stream state (spans.take count) := by
  induction spans generalizing state count with
  | nil => simp [expireBlocks]
  | cons span spans ih =>
      cases count with
      | zero => rfl
      | succ count => simp [expireBlocks, ih]

/-! ## The blocks -/

/-- Spans that follow each other from a start and stay inside the stream. -/
def Consecutive (edgeEnd : Nat) : Nat → List (Nat × Nat) → Prop
  | _, [] => True
  | start, span :: spans =>
      span.1 = start ∧ start < span.2 ∧ span.2 ≤ edgeEnd ∧ Consecutive edgeEnd span.2 spans

theorem Consecutive.take {edgeEnd start : Nat} {spans : List (Nat × Nat)}
    (consecutive : Consecutive edgeEnd start spans) (count : Nat) :
    Consecutive edgeEnd start (spans.take count) := by
  induction spans generalizing start count with
  | nil => simp [Consecutive]
  | cons span spans ih =>
      obtain ⟨first, nonempty, inside, rest⟩ := consecutive
      cases count with
      | zero => trivial
      | succ count => exact ⟨first, nonempty, inside, ih rest count⟩

theorem expireBlocks_counts (state : ExpireState) (spans : List (Nat × Nat)) :
    (expireBlocks g.toTemporalCsr stream state spans).map Prod.fst =
      spans.map fun span => span.2 - span.1 := by
  induction spans generalizing state with
  | nil => rfl
  | cons span spans ih => simp [expireBlocks, ih]

/-- The roots of a span are the ends of its edges at the edges' times. -/
theorem mem_spanRoots {span : Nat × Nat} (inStream : span.2 ≤ stream.eid.length) {root : Root} :
    root ∈ spanRoots stream span ↔ ∃ i, span.1 ≤ i ∧ i < span.2 ∧
      root ∈ [(stream.src.getD i 0, stream.time.getD i 0),
        (stream.dst.getD i 0, stream.time.getD i 0)] := by
  have lengths := And.intro stream.srcLength (And.intro stream.dstLength stream.timeLength)
  have columns : spanRoots stream span =
      ((List.range' span.1 (span.2 - span.1)).map fun i =>
        (stream.src.getD i default, stream.time.getD i default)) ++
      (List.range' span.1 (span.2 - span.1)).map fun i =>
        (stream.dst.getD i default, stream.time.getD i default) := by
    unfold spanRoots
    simp only
    rw [slice_eq_map (by omega), slice_eq_map (by omega), slice_eq_map (by omega),
      List.zip_append (by simp), List.zip_map', List.zip_map']
  have inside : ∀ i, i ∈ List.range' span.1 (span.2 - span.1) ↔ span.1 ≤ i ∧ i < span.2 := by
    intro i
    rw [List.mem_range'_1]
    omega
  simp only [columns, List.mem_append, List.mem_map, inside, List.mem_cons, List.not_mem_nil,
    or_false]
  constructor
  · rintro (⟨i, bounds, rfl⟩ | ⟨i, bounds, rfl⟩)
    · exact ⟨i, bounds.1, bounds.2, Or.inl rfl⟩
    · exact ⟨i, bounds.1, bounds.2, Or.inr rfl⟩
  · rintro ⟨i, low, high, rfl | rfl⟩
    · exact Or.inl ⟨i, ⟨low, high⟩, rfl⟩
    · exact Or.inr ⟨i, ⟨low, high⟩, rfl⟩

/-- The roots have the times of edges below a bound. -/
def RootsBefore (stream : EdgeStream) (roots : List Root) (bound : Nat) : Prop :=
  ∀ root ∈ roots, ∃ i < bound, root.2 = stream.time.getD i 0

theorem RootsBefore.span {roots : List Root} {span : Nat × Nat}
    (before : RootsBefore stream roots span.1) (order : span.1 ≤ span.2)
    (inStream : span.2 ≤ stream.eid.length) :
    RootsBefore stream (roots ++ spanRoots stream span) span.2 := by
  intro root member
  rcases List.mem_append.mp member with old | new
  · obtain ⟨i, bound, time⟩ := before root old
    exact ⟨i, by omega, time⟩
  · obtain ⟨i, -, bound, own⟩ := (mem_spanRoots inStream).mp new
    refine ⟨i, bound, ?_⟩
    simp only [List.mem_cons, List.not_mem_nil, or_false] at own
    rcases own with rfl | rfl <;> rfl

/-- An edge expires through roots that come after it. -/
theorem Expired.lt {roots : List Root} {bound e : Nat} (expired : Expired g roots e)
    (before : RootsBefore stream roots bound) : e < bound := by
  obtain ⟨p, inside, own⟩ := List.getElem_of_mem (g.present e expired.1)
  have own : g.eidAt p = e := by simpa [TemporalCsr.eidAt, inside] using own
  obtain ⟨root, member, inRow, behind⟩ := expired.2 p inside own
  obtain ⟨i, early, time⟩ := before root member
  obtain ⟨-, -, separates⟩ := TemporalCsr.recentEnd_spec (g.sortedRow root.1) root.2
  have less := (separates p inRow).mp (by omega)
  have order := g.eidAt_lt inRow (time ▸ less)
  omega

/-- The blocks are a history for the allocator. -/
theorem expireBlocks_history {roots : List Root} {state : ExpireState}
    (tracks : Tracks g roots state) {start : Nat} (before : RootsBefore stream roots start)
    {expired : List Nat} (known : ∀ e, e ∈ expired ↔ Expired g roots e)
    {spans : List (Nat × Nat)} (consecutive : Consecutive stream.eid.length start spans) :
    History start expired (expireBlocks g.toTemporalCsr stream state spans) := by
  induction spans generalizing roots state start expired with
  | nil => trivial
  | cons span spans ih =>
      obtain ⟨rfl, nonempty, inStream, rest⟩ := consecutive
      have after := before.span (Nat.le_of_lt nonempty) inStream
      have count : span.1 + (span.2 - span.1) = span.2 := by omega
      refine ⟨by omega, (nonzero_pairwise _).imp Nat.ne_of_lt, ?_, ?_⟩
      · intro e member
        obtain ⟨now, old⟩ := (mem_expEids tracks span e).mp member
        rw [count, known]
        exact ⟨now.lt after, old⟩
      · rw [count]
        refine ih (tracks.block span) after (fun e => ?_) rest
        rw [List.mem_append, known, mem_expEids tracks span]
        constructor
        · rintro (old | ⟨now, -⟩)
          · exact old.mono fun root member => List.mem_append_left _ member
          · exact now
        · intro now
          by_cases old : Expired g roots e
          · exact Or.inl old
          · exact Or.inr ⟨now, old⟩

/-- The blocks together have the edges between their first and last end. -/
theorem expireBlocks_edges {state : ExpireState} {start : Nat} {spans : List (Nat × Nat)}
    (consecutive : Consecutive stream.eid.length start spans) :
    start + edgesOf (expireBlocks g.toTemporalCsr stream state spans) =
      (spans.getLast?.map Prod.snd).getD start := by
  induction spans generalizing state start with
  | nil => simp [expireBlocks, edgesOf]
  | cons span spans ih =>
      obtain ⟨rfl, nonempty, -, rest⟩ := consecutive
      have tail := @ih (state.block g.toTemporalCsr stream span) span.2 rest
      simp only [edgesOf] at tail
      simp only [expireBlocks, edgesOf, List.map_cons, List.sum_cons]
      have count : span.1 + (span.2 - span.1) = span.2 := by omega
      rw [← Nat.add_assoc, count, tail]
      cases spans with
      | nil => simp
      | cons next spans => simp [List.getLast?_cons]

/-- The spans of the loop: block `b` has the edges from `b * batchSize` on. -/
theorem blockSpans_eq {batchSize edgeEnd fuel left : Nat} (nonempty : 0 < batchSize)
    (enough : edgeEnd ≤ left + fuel) :
    ∃ count, (∀ b, b < count ↔ left + b * batchSize < edgeEnd) ∧
      blockSpans batchSize edgeEnd fuel left = (List.range count).map fun b =>
        (left + b * batchSize, min edgeEnd (left + (b + 1) * batchSize)) := by
  induction fuel generalizing left with
  | zero => exact ⟨0, fun b => by omega, rfl⟩
  | succ fuel ih =>
      rw [blockSpans]
      split
      case isTrue ended =>
          exact ⟨0, fun b => by have := Nat.zero_le (b * batchSize); omega, rfl⟩
      case isFalse more =>
          have later : edgeEnd ≤ min edgeEnd (left + batchSize) + fuel := by omega
          obtain ⟨count, blocks, spans⟩ := ih later
          have shift : ∀ b, left + (b + 1) * batchSize = left + batchSize + b * batchSize := by
            intro b
            rw [Nat.succ_mul]
            omega
          refine ⟨count + 1, fun b => ?_, ?_⟩
          · cases b with
            | zero => simp; omega
            | succ b =>
                rw [Nat.add_lt_add_iff_right, blocks, shift]
                omega
          · rw [List.range_succ_eq_map, List.map_cons, List.map_map, spans]
            congr 1
            · simp
            · apply List.map_congr_left
              intro b member
              have inside := (blocks b).mp (List.mem_range.mp member)
              have right : min edgeEnd (left + batchSize) = left + batchSize := by omega
              simp only [Function.comp_apply, Nat.succ_eq_add_one, shift, right]

/-- The spans follow each other from the first edge to the last. -/
theorem blockSpans_consecutive (batchSize edgeEnd fuel left : Nat) :
    Consecutive edgeEnd left (blockSpans batchSize edgeEnd fuel left) := by
  induction fuel generalizing left with
  | zero => trivial
  | succ fuel ih =>
      rw [blockSpans]
      split
      case isTrue => trivial
      case isFalse more => exact ⟨rfl, Nat.not_le.mp more, Nat.min_le_left _ _, ih _⟩

end Dolphin.ValidEdge
