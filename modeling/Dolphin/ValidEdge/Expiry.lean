import Dolphin.Sampler.PartMaps
import Dolphin.ValidEdge.ExpiredEdges

/-!
# Expiry and the sampler

The first hop of a root never returns an expired edge: the root's time is not
before those of the earlier blocks, so the entry is among the ten that every
earlier root of its row left alone. A second hop starts from a node at the time
of an old edge. What it returns has expired unless one of the edge's entries is
still among the last ten of its row, so for two layers that is the exact
condition. `gen_expire` works with one layer whatever the sampler's layers are.
-/

namespace Dolphin.ValidEdge

open Dolphin.Graph Dolphin.Sampler Dolphin.Tensor

variable {stream : EdgeStream} {g : StreamGraph stream}

/-! ## Hops -/

/-- A hop is one of the `fanNum` last entries of the row before the root's time. -/
theorem mem_hops {fanNum : Nat} {root : Root} {hop : Nat × Nat × Nat}
    (member : hop ∈ hops g.toTemporalCsr fanNum root) :
    ∃ p, g.InRow root.1 p ∧ g.recentEnd root.1 root.2 ≤ p + fanNum ∧ g.tsAt p < root.2 ∧
      hop.2 = (g.tsAt p, g.eidAt p) := by
  obtain ⟨start, bounded, separates⟩ :=
    TemporalCsr.recentEnd_spec (g.sortedRow root.1) root.2
  simp only [hops, List.mem_map, List.mem_range] at member
  obtain ⟨j, bound, rfl⟩ := member
  have inRow : g.InRow root.1 (g.recentEnd root.1 root.2 - 1 - j) := ⟨by omega, by omega⟩
  exact ⟨_, inRow, by omega, (separates _ inRow).mp (by omega), rfl⟩

/-- A hop leads to a node of an edge. -/
theorem hop_mem_stream {fanNum : Nat} {root : Root} {hop : Nat × Nat × Nat}
    (member : hop ∈ hops g.toTemporalCsr fanNum root) :
    hop.1 ∈ stream.src ∨ hop.1 ∈ stream.dst := by
  have bounded := (TemporalCsr.recentEnd_spec (g.sortedRow root.1) root.2).2.1
  simp only [hops, List.mem_map, List.mem_range] at member
  obtain ⟨j, picked, rfl⟩ := member
  generalize position : g.recentEnd root.1 root.2 - 1 - j = p
  have inRow : g.InRow root.1 p := ⟨by omega, by omega⟩
  obtain ⟨inIndptr, inside⟩ := g.rowEnd_le inRow
  have known := inRow.2.trans_le inside
  have edge := (g.entry p known).1
  have src : stream.src.getD (g.eidAt p) 0 ∈ stream.src := by
    rw [List.getD_eq_getElem?_getD, List.getElem?_eq_getElem (stream.srcLength ▸ edge)]
    exact List.getElem_mem _
  have dst : stream.dst.getD (g.eidAt p) 0 ∈ stream.dst := by
    rw [List.getD_eq_getElem?_getD, List.getElem?_eq_getElem (stream.dstLength ▸ edge)]
    exact List.getElem_mem _
  rcases g.incident root.1 (Nat.lt_of_succ_lt inIndptr) p known inRow with own | own
  · exact Or.inr ((Prod.mk.inj own).2 ▸ dst)
  · exact Or.inl ((Prod.mk.inj own).1 ▸ src)

/-- What is reached from a root at the time of an edge are earlier edges. -/
theorem reachedEids_lt {fanNums : List Nat} {root : Root} {i e : Nat}
    (time : root.2 ≤ stream.time.getD i 0)
    (member : e ∈ reachedEids g.toTemporalCsr fanNums root) : e < i := by
  induction fanNums generalizing root with
  | nil => simp [reachedEids] at member
  | cons fanNum fanNums ih =>
      simp only [reachedEids, List.mem_append, List.mem_map, List.mem_flatMap] at member
      rcases member with (⟨hop, reached, rfl⟩ | later) | ⟨hop, reached, later⟩
      · obtain ⟨p, inRow, -, before, own⟩ := mem_hops reached
        rw [own]
        exact g.eidAt_lt inRow (by omega)
      · exact ih time later
      · obtain ⟨p, -, -, before, own⟩ := mem_hops reached
        refine ih ?_ later
        rw [own]
        exact Nat.le_trans (Nat.le_of_lt before) time

/-- An entry among the last ten before a time has not expired at that time. -/
theorem not_expired_of_recent {roots : List Root} {row ts p : Nat} (inRow : g.InRow row p)
    (recent : g.recentEnd row ts ≤ p + expireFanNum) (earlier : ∀ root ∈ roots, root.2 ≤ ts) :
    ¬Expired g roots (g.eidAt p) := by
  intro expired
  have inside := Nat.lt_of_lt_of_le inRow.2 (g.rowEnd_le inRow).2
  obtain ⟨root, member, other, behind⟩ := expired.2 p inside rfl
  obtain same : root.1 = row := g.row_unique other inRow
  have later := TemporalCsr.recentEnd_mono (g.sortedRow row) (earlier root member)
  rw [same] at behind
  omega

/-! ## The blocks of a dataset -/

/-- The roots of the blocks up to one. -/
def rootsUpTo (stream : EdgeStream) (config : BlockConfig) (block : Nat) : List Root :=
  (List.range (block + 1)).flatMap (posRoots stream config)

/-- One of the edge's entries is among the last ten of its row at every root of the row. -/
def RecentEntry (g : StreamGraph stream) (roots : List Root) (e : Nat) : Prop :=
  ∃ p < g.totaleid.length, g.eidAt p = e ∧
    ∀ root ∈ roots, g.InRow root.1 p → g.recentEnd root.1 root.2 ≤ p + expireFanNum

theorem not_expired_iff {roots : List Root} {e : Nat} (known : e < stream.eid.length) :
    ¬Expired g roots e ↔ RecentEntry g roots e := by
  simp only [Expired, known, true_and, not_forall, Marked, not_exists, not_and, Nat.not_lt,
    RecentEntry, exists_prop]

variable {config : BlockConfig}

/-- The spans of `gen_expire` are the blocks of the planner. -/
theorem spanRoots_block (stream : EdgeStream) (config : BlockConfig) (block : Nat) :
    spanRoots stream (0 + block * config.batchSize,
      min stream.eid.length (0 + (block + 1) * config.batchSize)) =
        posRoots stream config block := by
  rw [Nat.zero_add, Nat.zero_add]
  rfl

/-- The first spans of a dataset, as many as the edges fill. -/
theorem blockSpans_take (sized : 0 < config.batchSize) {block : Nat}
    (begun : block * config.batchSize < stream.eid.length) :
    (blockSpans config.batchSize stream.eid.length stream.eid.length 0).take (block + 1) =
      (List.range (block + 1)).map fun b => (0 + b * config.batchSize,
        min stream.eid.length (0 + (b + 1) * config.batchSize)) := by
  have enough : stream.eid.length ≤ 0 + stream.eid.length := by omega
  obtain ⟨count, blocks, spans⟩ := blockSpans_eq sized enough
  have bound : block + 1 ≤ count := (blocks block).mpr (by omega)
  rw [spans, ← List.map_take, List.take_range, Nat.min_eq_left bound]

/-- After the blocks up to one, the edges that have expired are those that the
roots of these blocks expire. -/
theorem mem_expiredBy_take (sized : 0 < config.batchSize) {block : Nat}
    (begun : block * config.batchSize < stream.eid.length) (e : Nat) :
    e ∈ expiredBy ((datasetBlocks g.toTemporalCsr stream config.batchSize).take (block + 1)) ↔
      Expired g (rootsUpTo stream config block) e := by
  rw [datasetBlocks, expireBlocks_take, mem_expiredBy Tracks.initial, blockSpans_take sized begun,
    List.flatMap_map]
  simp only [spanRoots_block, not_expired_nil, not_false_eq_true, and_true, List.nil_append]
  rfl

/-- A block of a dataset has the edges of its span. -/
theorem datasetBlocks_at (sized : 0 < config.batchSize) {block : Nat}
    (begun : block * config.batchSize < stream.eid.length) :
    ∃ count expEids rest, datasetBlocks g.toTemporalCsr stream config.batchSize =
        (datasetBlocks g.toTemporalCsr stream config.batchSize).take block ++
          (count, expEids) :: rest ∧
      edgesOf ((datasetBlocks g.toTemporalCsr stream config.batchSize).take block) + count =
        min stream.eid.length ((block + 1) * config.batchSize) := by
  have consecutive := blockSpans_consecutive config.batchSize stream.eid.length
    stream.eid.length 0
  have edges : edgesOf ((datasetBlocks g.toTemporalCsr stream config.batchSize).take
      (block + 1)) = min stream.eid.length ((block + 1) * config.batchSize) := by
    have total := @expireBlocks_edges stream g (.initial g.toTemporalCsr) 0 _
      (consecutive.take (block + 1))
    rw [Nat.zero_add] at total
    rw [datasetBlocks, expireBlocks_take, total, blockSpans_take sized begun]
    simp [List.getLast?_range]
  have bound : block < (datasetBlocks g.toTemporalCsr stream config.batchSize).length := by
    have spans := congrArg List.length (blockSpans_take sized begun)
    have counts := congrArg List.length (@expireBlocks_counts stream g (.initial g.toTemporalCsr)
      (blockSpans config.batchSize stream.eid.length stream.eid.length 0))
    simp only [List.length_take, List.length_map, List.length_range] at spans counts
    rw [datasetBlocks]
    omega
  rw [List.take_succ_eq_append_getElem bound] at edges
  refine ⟨_, _, _, (List.take_append_drop block _).symm.trans
    (congrArg _ (List.drop_eq_getElem_cons bound)), ?_⟩
  simp only [edgesOf, List.map_append, List.sum_append, List.map_cons, List.map_nil,
    List.sum_cons, List.sum_nil, Nat.add_zero] at edges
  exact edges

theorem datasetBlocks_block (sized : 0 < config.batchSize) {block : Nat}
    (begun : (block + 1) * config.batchSize < stream.eid.length) :
    ∃ count expEids rest, datasetBlocks g.toTemporalCsr stream config.batchSize =
        (datasetBlocks g.toTemporalCsr stream config.batchSize).take (block + 1) ++
          (count, expEids) :: rest ∧
      edgesOf ((datasetBlocks g.toTemporalCsr stream config.batchSize).take (block + 1)) + count =
        min stream.eid.length ((block + 2) * config.batchSize) :=
  datasetBlocks_at sized begun

/-- What the allocator asks of the blocks of a dataset. -/
theorem datasetBlocks_history (sized : 0 < config.batchSize) :
    History 0 [] (datasetBlocks g.toTemporalCsr stream config.batchSize) ∧
      (∀ block ∈ datasetBlocks g.toTemporalCsr stream config.batchSize,
        block.1 ≤ config.batchSize) ∧
      edgesOf (datasetBlocks g.toTemporalCsr stream config.batchSize) ≤ stream.eid.length := by
  have consecutive := blockSpans_consecutive config.batchSize stream.eid.length
    stream.eid.length 0
  have enough : stream.eid.length ≤ 0 + stream.eid.length := by omega
  obtain ⟨count, -, spans⟩ := blockSpans_eq sized enough
  have total := @expireBlocks_edges stream g (.initial g.toTemporalCsr) 0 _ consecutive
  have counts := @expireBlocks_counts stream g (.initial g.toTemporalCsr)
    (blockSpans config.batchSize stream.eid.length stream.eid.length 0)
  refine ⟨?_, ?_, ?_⟩
  · refine expireBlocks_history Tracks.initial (fun root member => ?_) (fun e => ?_) consecutive
    · exact absurd member List.not_mem_nil
    · simp [not_expired_nil]
  · intro block member
    have counted := List.mem_map_of_mem (f := Prod.fst) member
    rw [datasetBlocks, counts, spans, List.map_map] at counted
    obtain ⟨b, -, own⟩ := List.mem_map.mp counted
    rw [← own]
    simp only [Function.comp_apply, Nat.succ_mul]
    omega
  · rw [Nat.zero_add, spans] at total
    rw [datasetBlocks, spans, total]
    cases count with
    | zero => simp
    | succ count => simp [List.getLast?_range]

/-! ## The main result -/

variable {α : Type} [Inhabited α]

/-- The expired sets of the blocks up to `block` leave the next block alone: no
edge in them is returned for any node at the time of one of its edges, and
`get_ef_valid` returns its positive and negative edges' own features, if the allocator's
searches have stayed in their tables. -/
structure ExpirySafe (g : StreamGraph stream) (config : BlockConfig) (fanNums : List Nat)
    (block : Nat) (edgeFeatures : List α) : Prop where
  kept : ∀ node i, (block + 1) * config.batchSize ≤ i →
    i < min stream.eid.length ((block + 2) * config.batchSize) →
    ∀ ret ∈ sampleLayer g.toTemporalCsr fanNums [(node, stream.time.getD i 0)], ∀ n ∈ ret.out,
      n.eid ∉ expiredBy
        ((datasetBlocks g.toTemporalCsr stream config.batchSize).take (block + 1))
  read : SearchableRun g.indptr config.batchSize
      (datasetBlocks g.toTemporalCsr stream config.batchSize) →
    ∃ run, genExpire g.indptr config.batchSize
        (datasetBlocks g.toTemporalCsr stream config.batchSize) = some run ∧
      ∀ negNodes, ∃ valid,
        replay run.files edgeFeatures run.state.endPtr stream.eid.length (block + 2) =
          some valid ∧
        ∀ eids, (∀ e ∈ eids,
            e ∈ (genPartMaps g.toTemporalCsr fanNums stream config (block + 1)).2 ∨
              e ∈ (preNegSample g.toTemporalCsr fanNums stream config (block + 1) negNodes).2) →
          getEfValid valid eids = eids.map fun e => edgeFeatures.getD e default

/-- Every edge the second layer returns for a root of the next block still has an
entry among the last ten of its row at every root up to the block. -/
def SecondHopsRecent (g : StreamGraph stream) (config : BlockConfig) (fanNums : List Nat)
    (block : Nat) : Prop :=
  ∀ fanNum fanNum', fanNums = [fanNum, fanNum'] →
    ∀ node i, (block + 1) * config.batchSize ≤ i →
      i < min stream.eid.length ((block + 2) * config.batchSize) →
      ∀ hop ∈ hops g.toTemporalCsr fanNum (node, stream.time.getD i 0),
        ∀ later ∈ hops g.toTemporalCsr fanNum' (hop.1, hop.2.1),
          RecentEntry g (rootsUpTo stream config block) later.2.2

/-- An edge of a block. -/
def InBlock (stream : EdgeStream) (config : BlockConfig) (block i : Nat) : Prop :=
  block * config.batchSize ≤ i ∧ i < min stream.eid.length ((block + 1) * config.batchSize)

/-- Positive roots have the times of their block's edges. -/
theorem posRoots_time {block : Nat} {root : Root} (member : root ∈ posRoots stream config block) :
    ∃ i, InBlock stream config block i ∧ root.2 = stream.time.getD i 0 := by
  rw [← spanRoots_block, mem_spanRoots (Nat.min_le_left _ _)] at member
  obtain ⟨i, low, high, own⟩ := member
  refine ⟨i, ⟨by omega, by omega⟩, ?_⟩
  simp only [List.mem_cons, List.not_mem_nil, or_false] at own
  rcases own with rfl | rfl <;> rfl

/-- Negative roots have the times of their block's edges, whatever their nodes are. -/
theorem negRoots_time (inStream : config.trainEdgeEnd ≤ stream.eid.length) {block : Nat}
    {negNodes : List Nat} {root : Root} (member : root ∈ negRoots stream config block negNodes) :
    ∃ i, InBlock stream config block i ∧ root.2 = stream.time.getD i 0 := by
  have length := stream.timeLength
  have start : config.blockStart block = block * config.batchSize := by
    rw [BlockConfig.blockStart, BlockConfig.batchSize, Nat.mul_assoc,
      Nat.mul_comm config.batchNum]
  have stop : (block * config.batchNum + config.batchNum) * config.trainBatchSize =
      (block + 1) * config.batchSize := by
    rw [← Nat.succ_mul, BlockConfig.batchSize, Nat.mul_assoc, Nat.mul_comm config.batchNum]
  have ends : config.blockEnd block = min config.trainEdgeEnd ((block + 1) * config.batchSize) := by
    rw [BlockConfig.blockEnd, stop]
  have time := (List.of_mem_zip member).2
  rw [slice_eq_map (by omega)] at time
  obtain ⟨i, inside, own⟩ := List.mem_map.mp time
  rw [List.mem_range'_1] at inside
  exact ⟨i, ⟨by omega, by omega⟩, own.symm⟩

theorem rootsUpTo_before (stream : EdgeStream) (config : BlockConfig) (block : Nat) :
    RootsBefore stream (rootsUpTo stream config block) ((block + 1) * config.batchSize) := by
  intro root member
  obtain ⟨b, earlier, own⟩ := List.mem_flatMap.mp member
  obtain ⟨i, inBlock, time⟩ := posRoots_time own
  have before : (b + 1) * config.batchSize ≤ (block + 1) * config.batchSize :=
    Nat.mul_le_mul_right _ (List.mem_range.mp earlier)
  have high := inBlock.2
  exact ⟨i, by omega, time⟩

/-- Roots up to a block are not later than an edge behind it. -/
theorem rootsUpTo_earlier (g : StreamGraph stream) {block i : Nat}
    (next : InBlock stream config (block + 1) i) :
    ∀ root ∈ rootsUpTo stream config block, root.2 ≤ stream.time.getD i 0 := by
  intro root member
  obtain ⟨j, before, time⟩ := rootsUpTo_before stream config block root member
  obtain ⟨low, high⟩ := next
  rw [time]
  exact g.time_mono (by omega) (by omega)

/-- First hops are safe. -/
theorem firstHop_not_expired {fanNum : Nat} (fanout : fanNum ≤ expireFanNum) {block i : Nat}
    (next : InBlock stream config (block + 1) i) {node : Nat} {hop : Nat × Nat × Nat}
    (reached : hop ∈ hops g.toTemporalCsr fanNum (node, stream.time.getD i 0)) :
    ¬Expired g (rootsUpTo stream config block) hop.2.2 := by
  obtain ⟨p, inRow, recent, -, own⟩ := mem_hops reached
  rw [own]
  exact not_expired_of_recent inRow (Nat.le_trans recent (Nat.add_le_add_left fanout p))
    (rootsUpTo_earlier g next)

/-- With recent second hops nothing that one or two layers reach has expired. -/
theorem reached_not_expired {fanNums : List Nat}
    (layers : fanNums.length = 1 ∨ fanNums.length = 2) (fanouts : ∀ f ∈ fanNums, f ≤ expireFanNum)
    {block : Nat} (recent : SecondHopsRecent g config fanNums block) {i : Nat}
    (next : InBlock stream config (block + 1) i) {node e : Nat}
    (reached : e ∈ reachedEids g.toTemporalCsr fanNums (node, stream.time.getD i 0)) :
    ¬Expired g (rootsUpTo stream config block) e := by
  rcases layers with one | two
  · obtain ⟨fanNum, rfl⟩ := List.length_eq_one_iff.mp one
    simp only [reachedEids, List.append_nil, List.mem_append, List.mem_map, List.mem_flatMap,
      List.not_mem_nil, and_false, exists_false, or_false] at reached
    obtain ⟨hop, found, rfl⟩ := reached
    exact firstHop_not_expired (fanouts fanNum (by simp)) next found
  · obtain ⟨fanNum, fanNum', rfl⟩ := List.length_eq_two.mp two
    have known := reachedEids_lt (Nat.le_refl _) reached
    simp only [reachedEids, List.append_nil, List.mem_append, List.mem_map, List.mem_flatMap,
      List.not_mem_nil, and_false, exists_false, or_false] at reached
    rcases reached with (⟨hop, found, rfl⟩ | ⟨hop, found, rfl⟩) | ⟨hop, found, later, returned, rfl⟩
    · exact firstHop_not_expired (fanouts fanNum (by simp)) next found
    · exact firstHop_not_expired (fanouts fanNum' (by simp)) next found
    · have inside := next.2
      rw [not_expired_iff (by omega)]
      exact recent fanNum fanNum' rfl node i next.1 inside hop found later returned

/-- The expired sets leave the next block alone exactly if there is no second
layer, or everything it returns still has a recent entry. -/
theorem expirySafe_iff (g : StreamGraph stream) (config : BlockConfig)
    (sized : 0 < config.batchSize) (inStream : config.trainEdgeEnd ≤ stream.eid.length)
    {fanNums : List Nat} (layers : fanNums.length = 1 ∨ fanNums.length = 2)
    (fanouts : ∀ f ∈ fanNums, f ≤ 10) {block : Nat}
    (begun : (block + 1) * config.batchSize < stream.eid.length)
    (fits : stream.eid.length ≤ unused) {edgeFeatures : List α}
    (features : stream.eid.length ≤ edgeFeatures.length) :
    ExpirySafe g config fanNums block edgeFeatures ↔ SecondHopsRecent g config fanNums block := by
  have before : block * config.batchSize < stream.eid.length := by
    rw [Nat.succ_mul] at begun
    omega
  constructor
  · intro safe fanNum fanNum' two node i low high hop reached later returned
    have member : later.2.2 ∈
        reachedEids g.toTemporalCsr fanNums (node, stream.time.getD i 0) := by
      rw [two]
      simp only [reachedEids, List.mem_append, List.mem_flatMap, List.mem_map]
      exact Or.inr ⟨hop, reached, Or.inl (Or.inl ⟨later, returned, rfl⟩)⟩
    have known := reachedEids_lt (Nat.le_refl _) member
    obtain ⟨ret, layer, n, sampled, own⟩ :=
      mem_sampleLayer_eids.mpr ⟨_, List.mem_singleton_self _, member⟩
    rw [← not_expired_iff (by omega), ← mem_expiredBy_take sized before, ← own]
    exact safe.kept node i low high ret layer n sampled
  · intro recent
    have kept := fun {i} (next : InBlock stream config (block + 1) i) {node e} =>
      @reached_not_expired stream g config fanNums layers fanouts block recent i next node e
    constructor
    · intro node i low high ret layer n sampled
      rw [mem_expiredBy_take sized before]
      obtain ⟨root, own, reached⟩ := mem_sampleLayer_eids.mp ⟨ret, layer, n, sampled, rfl⟩
      obtain rfl := List.mem_singleton.mp own
      exact kept ⟨low, high⟩ reached
    · intro searchable
      obtain ⟨history, counts, edges⟩ := datasetBlocks_history (g := g) sized
      obtain ⟨count, expEids, rest, split, ends⟩ := datasetBlocks_block (g := g) sized begun
      obtain ⟨run, -, -, ran, -⟩ := genExpire_invariant history counts
        (Nat.le_trans edges fits) searchable (List.append_nil _).symm
      refine ⟨run, ran, fun negNodes => ?_⟩
      obtain ⟨valid, replayed, reads⟩ := genExpire_reads history counts
        (Nat.le_trans edges fits) searchable edges (Nat.le_trans edges features) ran split
      have turns : ((datasetBlocks g.toTemporalCsr stream config.batchSize).take
          (block + 1)).length + 1 = block + 2 := by
        have lengths := congrArg List.length split
        simp only [List.length_append, List.length_cons, List.length_take] at lengths ⊢
        omega
      rw [turns] at replayed
      refine ⟨valid, replayed, fun eids asked => reads eids fun e member => ?_⟩
      rw [ends, mem_expiredBy_take sized before]
      have sampled : ∀ {roots : List Root}, (∀ root ∈ roots, ∃ i,
            InBlock stream config (block + 1) i ∧ root.2 = stream.time.getD i 0) →
          (∃ ret ∈ sampleLayer g.toTemporalCsr fanNums roots, ∃ n ∈ ret.out, n.eid = e) →
          e < min stream.eid.length ((block + 2) * config.batchSize) ∧
            ¬Expired g (rootsUpTo stream config block) e := by
        intro roots times found
        obtain ⟨root, own, reached⟩ := mem_sampleLayer_eids.mp found
        obtain ⟨i, next, time⟩ := times root own
        have known := reachedEids_lt (Nat.le_of_eq time) reached
        have same : root = (root.1, stream.time.getD i 0) := by rw [← time]
        rw [same] at reached
        exact ⟨Nat.lt_trans known next.2, kept next reached⟩
      rcases asked e member with positive | negative
      · rcases mem_collectEids.mp positive with own | found
        · obtain ⟨low, high⟩ := (mem_slice_eid (Nat.min_le_left _ _)).mp own
          refine ⟨high, fun expired => ?_⟩
          have early := expired.lt (rootsUpTo_before stream config block)
          omega
        · exact sampled (fun root => posRoots_time) found
      · rcases mem_collectEids.mp negative with none_ | found
        · exact absurd none_ List.not_mem_nil
        · exact sampled (fun root => negRoots_time inStream) found

/-- The positive map of a block has edges of the stream. -/
theorem genPartMaps_edge_lt {fanNums : List Nat} {block e : Nat}
    (member : e ∈ (genPartMaps g.toTemporalCsr fanNums stream config block).2) :
    e < stream.eid.length := by
  rcases mem_collectEids.mp member with own | found
  · exact ((mem_slice_eid (Nat.min_le_left _ _)).mp own).2.trans_le (Nat.min_le_left _ _)
  · obtain ⟨root, source, reached⟩ := mem_sampleLayer_eids.mp found
    obtain ⟨i, inBlock, time⟩ := posRoots_time source
    exact (reachedEids_lt (Nat.le_of_eq time) reached).trans
      (inBlock.2.trans_le (Nat.min_le_left _ _))

/-- So have the negatives. -/
theorem preNegSample_edge_lt (inStream : config.trainEdgeEnd ≤ stream.eid.length)
    {fanNums negNodes : List Nat} {block e : Nat}
    (member : e ∈ (preNegSample g.toTemporalCsr fanNums stream config block negNodes).2) :
    e < stream.eid.length := by
  rcases mem_collectEids.mp member with none_ | found
  · exact absurd none_ List.not_mem_nil
  · obtain ⟨root, source, reached⟩ := mem_sampleLayer_eids.mp found
    obtain ⟨i, inBlock, time⟩ := negRoots_time inStream source
    exact (reachedEids_lt (Nat.le_of_eq time) reached).trans
      (inBlock.2.trans_le (Nat.min_le_left _ _))

/-! ## A second hop to an expired edge -/

/-- Edge 0 joins nodes 0 and 1, edge 1 leads from node 2 to node 0, eleven more
edges join 0 and 1, and the last edge leads from 2 to 1. -/
def repeatStream : EdgeStream where
  src := [0, 2] ++ List.replicate 11 0 ++ [2]
  dst := [1, 0] ++ List.replicate 11 1 ++ [1]
  time := List.range' 1 14
  eid := List.range 14
  srcLength := rfl
  dstLength := rfl
  timeLength := rfl
  eidRow := rfl

/-- Its graph with reverse entries. -/
def repeatGraph : StreamGraph repeatStream where
  indptr := [0, 13, 26, 28]
  indices := [1, 2] ++ List.replicate 11 1 ++ List.replicate 12 0 ++ [2] ++ [0, 1]
  totalts := List.range' 1 13 ++ [1] ++ List.range' 3 12 ++ [2, 14]
  totaleid := List.range' 0 13 ++ [0] ++ List.range' 2 12 ++ [1, 13]
  chronological := by decide
  first := rfl
  last := rfl
  rows := by decide
  indicesLength := rfl
  sorted := by decide
  entry := by decide
  incident := by decide
  present := by decide

/-- With the first thirteen edges in one block, edge 0 has expired when the second
hop of node 2 returns it, and its row holds the last edge's feature. -/
theorem expiry_second_hop :
    let blocks := datasetBlocks repeatGraph.toTemporalCsr repeatStream 13
    expiredBy (blocks.take 1) = [0] ∧
      (∃ ret ∈ sampleLayer repeatGraph.toTemporalCsr [10, 10] [(2, 14)],
        ∃ n ∈ ret.out, n.eid = 0) ∧
      ((genExpire repeatGraph.indptr 13 blocks).bind fun run =>
        (replay run.files (List.range' 100 14) run.state.endPtr 14 2).map
          fun valid => getEfValid valid [0]) = some [113] ∧
      ¬ExpirySafe repeatGraph ⟨13, 13, 14⟩ [10, 10] 0 (List.range' 100 14) := by
  have expired : expiredBy ((datasetBlocks repeatGraph.toTemporalCsr repeatStream 13).take 1) =
      [0] := by decide +kernel
  have returned : ∃ ret ∈ sampleLayer repeatGraph.toTemporalCsr [10, 10] [(2, 14)],
      ∃ n ∈ ret.out, n.eid = 0 := by decide +kernel
  refine ⟨expired, returned, by decide +kernel, fun safe => ?_⟩
  obtain ⟨ret, layer, n, sampled, own⟩ := returned
  refine safe.kept 2 13 (by decide) (by decide) ret layer n sampled ?_
  change n.eid ∈ expiredBy ((datasetBlocks repeatGraph.toTemporalCsr repeatStream 13).take 1)
  rw [expired, own]
  exact List.mem_singleton_self 0

/-- The same graph is safe for one layer. -/
theorem expirySafe_one_layer :
    ExpirySafe repeatGraph ⟨13, 13, 14⟩ [10] 0 (List.range' 100 14) := by
  refine (expirySafe_iff repeatGraph ⟨13, 13, 14⟩ (by decide) (by decide) (by decide) (by decide)
    (by decide) (by decide) (by decide)).mpr ?_
  intro fanNum fanNum' two
  cases two

end Dolphin.ValidEdge
