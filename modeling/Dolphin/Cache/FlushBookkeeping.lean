import Mathlib.Data.List.Nodup
import Dolphin.Cache.Flushes

/-!
# When the flushes keep their books

A list and its path stay together until the first flush in the loop. It clears the lists
and keeps the paths, so that the next lists are saved under the paths of the first ones.
-/

namespace Dolphin.Cache

open Dolphin.Store

/-! ## One side -/

/-- Some lists, none of which was extracted. -/
def His.holding (lists : List Listed) : His :=
  ⟨lists.map Prod.fst, (lists.map Prod.fst).map HisMax.ofIds, lists.map Prod.snd, lists, []⟩

theorem foldl_append (lists : List Listed) (his : His) :
    lists.foldl His.append his =
      ⟨his.ids ++ lists.map Prod.fst, his.max ++ (lists.map Prod.fst).map HisMax.ofIds,
        his.savePaths ++ lists.map Prod.snd, his.appended ++ lists, his.saved⟩ := by
  induction lists generalizing his with
  | nil => simp
  | cons list lists ih =>
      rw [List.foldl_cons, ih]
      simp [His.append]

theorem foldl_append_holding (early late : List Listed) :
    late.foldl His.append (.holding early) = .holding (early ++ late) := by
  rw [foldl_append]
  simp [His.holding]

/-- The lists of one side are extracted unless the maximum is a plain `0`. -/
theorem streamExtract_holding {lists : List Listed} (occupied : lists ≠ []) (windowSize : Nat) :
    (His.holding lists).streamExtract windowSize =
      if MaxIsInt (lists.map Prod.fst) then none
      else
        some
          { His.holding lists with
            saved := if 0 < windowSize then (His.holding lists).jobs else [] } := by
  by_cases raises : MaxIsInt (lists.map Prod.fst)
  · have none_ := maxItem_none raises
    rw [if_pos raises]
    simp only [His.streamExtract, His.holding, Option.bind_eq_bind, ← Option.bind_assoc, none_,
      Option.bind_none]
  · obtain ⟨maxId, item, -⟩ := maxItem_some (by simpa using occupied) raises
    rw [if_neg raises]
    simp only [His.streamExtract, His.holding, Option.bind_eq_bind, ← Option.bind_assoc, item,
      Option.bind_some, List.nil_append]

/-- The paths by position are the opened ones when the first list is the first block's,
or the only one. -/
theorem jobs_holding {first : Listed} {rest : List Listed}
    (plain : first.2.opened = first.2.plain)
    (later : ∀ list ∈ rest, list.2.opened = list.2.incre) :
    (His.holding (first :: rest)).jobs =
      (first :: rest).map fun list => (list.1, list.2.opened) := by
  have names : ∀ (lists : List Listed) (i : Nat), 0 < i →
      (∀ list ∈ lists, list.2.opened = list.2.incre) →
      (lists.map Prod.fst).zip (((lists.map Prod.snd).zipIdx i).map fun entry =>
        if 0 < entry.2 then entry.1.incre else entry.1.plain) =
      lists.map fun list => (list.1, list.2.opened) := by
    intro lists
    induction lists with
    | nil => intros; rfl
    | cons list lists ih =>
        intro i positive opened
        have own := opened list (by simp)
        simp only [List.map_cons, List.zipIdx_cons, List.zip_cons_cons, if_pos positive, own]
        rw [ih (i + 1) (Nat.succ_pos i) fun other member => opened other (by simp [member])]
  simp only [His.jobs, His.holding, List.map_cons, List.zipIdx_cons, List.zip_cons_cons,
    Nat.lt_irrefl, if_false, plain]
  rw [names rest _ Nat.one_pos later]

/-- The first list is saved under the first path. -/
theorem head_mem_jobs {his : His} {first : SavePath} {rest : List SavePath}
    (paths : his.savePaths = first :: rest) (occupied : his.ids ≠ []) :
    first.plain ∈ his.jobs.map Prod.snd := by
  obtain ⟨ids, others, held⟩ := List.exists_cons_of_ne_nil occupied
  simp [His.jobs, paths, held]

/-! ## Paths -/

theorem opened_injective : Function.Injective SavePath.opened := by
  intro left right same
  cases left with
  | part side block =>
      cases right with
      | part other block' =>
          simp only [SavePath.opened, SavedPath.part.injEq] at same
          rw [same.1, same.2.1]
      | cache other start => cases same
  | cache side start =>
      cases right with
      | part other block => cases same
      | cache other start' =>
          simp only [SavePath.opened, SavedPath.cache.injEq] at same
          rw [same.1, same.2]

/-- The side of a path. -/
def SavePath.side : SavePath → FeatSide
  | .part side _ | .cache side _ => side

/-- The block of a part, the first block of a cache. -/
def SavePath.index : SavePath → Nat
  | .part _ block => block
  | .cache _ start => start

theorem side_windowLists {side : FeatSide} {files : SideFiles} {start : Nat} {blocks : List Nat}
    {list : Listed} (member : list ∈ windowLists side files start blocks) :
    list.2.side = side := by
  rw [windowLists, List.mem_append, List.mem_map, List.mem_singleton] at member
  rcases member with ⟨block, -, rfl⟩ | rfl
  · rfl
  · rfl

/-! ## The order of the lists -/

/-- Lists of one side before a window that begins at `start`: every path once, and the
first block's before all others. -/
structure Ordered (side : FeatSide) (lists : List Listed) (start : Nat) : Prop where
  sides : ∀ list ∈ lists, list.2.side = side
  distinct : (lists.map Prod.snd).Nodup
  earlier : ∀ list ∈ lists, list.2.index < start
  first : lists = [] ∧ start = 0 ∨ ∃ ids rest, lists = (ids, .part side 0) :: rest

theorem ordered_nil (side : FeatSide) : Ordered side [] 0 :=
  ⟨nofun, List.nodup_nil, nofun, Or.inl ⟨rfl, rfl⟩⟩

theorem map_snd_windowLists (side : FeatSide) (files : SideFiles) (start : Nat)
    (blocks : List Nat) :
    (windowLists side files start blocks).map Prod.snd =
      blocks.map (.part side) ++ [.cache side start] := by
  simp [windowLists, Function.comp_def]

/-- A window with a block extends the order. -/
theorem Ordered.window {side : FeatSide} {lists : List Listed} {start count : Nat}
    (ordered : Ordered side lists start) (files : SideFiles) (occupied : 0 < count) :
    Ordered side (lists ++ windowLists side files start (List.range' start count))
      (start + count) where
  sides := by
    intro list member
    rcases List.mem_append.mp member with early | late
    · exact ordered.sides list early
    · exact side_windowLists late
  distinct := by
    rw [List.map_append, map_snd_windowLists]
    refine ordered.distinct.append ?_ ?_
    · refine List.Nodup.append ?_ (List.nodup_singleton _) ?_
      · refine List.Nodup.map ?_ List.nodup_range'
        intro left right same
        exact (SavePath.part.inj same).2
      · intro path part cache
        obtain ⟨block, -, rfl⟩ := List.mem_map.mp part
        cases List.mem_singleton.mp cache
    · intro path early late
      obtain ⟨list, held, rfl⟩ := List.mem_map.mp early
      have bound := ordered.earlier list held
      rcases List.mem_append.mp late with part | cache
      · obtain ⟨block, inside, same⟩ := List.mem_map.mp part
        rw [List.mem_range'_1] at inside
        rw [← same] at bound
        exact absurd inside.1 (Nat.not_le_of_lt bound)
      · rw [List.mem_singleton.mp cache] at bound
        exact absurd bound (Nat.lt_irrefl start)
  earlier := by
    intro list member
    rcases List.mem_append.mp member with early | late
    · exact Nat.lt_add_right count (ordered.earlier list early)
    · rw [windowLists, List.mem_append, List.mem_map, List.mem_singleton] at late
      rcases late with ⟨block, inside, rfl⟩ | rfl
      · exact (List.mem_range'_1.mp inside).2
      · exact Nat.lt_add_of_pos_right occupied
  first := by
    refine Or.inr ?_
    rcases ordered.first with ⟨rfl, rfl⟩ | ⟨ids, rest, rfl⟩
    · obtain ⟨more, rfl⟩ : ∃ more, count = more + 1 := ⟨count - 1, by omega⟩
      exact ⟨_, _, rfl⟩
    · exact ⟨ids, _, rfl⟩

/-- In this order the positions give the opened paths. -/
theorem Ordered.jobs {side : FeatSide} {lists : List Listed} {start : Nat}
    (ordered : Ordered side lists start) (occupied : lists ≠ []) :
    (His.holding lists).jobs = lists.map fun list => (list.1, list.2.opened) := by
  rcases ordered.first with ⟨none_, -⟩ | ⟨ids, rest, rfl⟩
  · exact absurd none_ occupied
  · refine jobs_holding rfl ?_
    intro list member
    have own := ordered.sides list (List.mem_cons_of_mem _ member)
    have apart : list.2 ≠ .part side 0 := by
      intro same
      have distinct := ordered.distinct
      rw [List.map_cons, List.nodup_cons] at distinct
      exact distinct.1 (List.mem_map.mpr ⟨list, member, same⟩)
    obtain ⟨ids', path⟩ := list
    cases path with
    | part other block =>
        obtain rfl : other = side := own
        cases block with
        | zero => exact absurd rfl apart
        | succ block => rfl
    | cache other start => rfl

/-! ## Turns without a flush -/

namespace FlushInput

variable (input : FlushInput)

/-- The lists of one side that are appended before a turn. -/
def before (lists : Nat → List Listed) : Nat → List Listed
  | 0 => []
  | block + 1 => before lists block ++ if input.Closes block then lists block else []

/-- All lists of one side. -/
def all (lists : Nat → List Listed) : List Listed :=
  input.before lists input.blockNum ++ lists input.blockNum

/-- The bytes of the windows that close before a turn. -/
def bytesBefore : Nat → Nat
  | 0 => 0
  | block + 1 => bytesBefore block + if input.Closes block then input.windowBytes block else 0

variable {input}

/-- With fewer edges than the threshold no window closes before the end. -/
theorem bytesBefore_of_lt (few : input.edgeEnd < threshold) (block : Nat) :
    input.bytesBefore block = 0 := by
  induction block with
  | zero => rfl
  | succ block ih =>
      have right : input.right block < threshold := (Nat.min_le_left _ _).trans_lt few
      have open_ : ¬input.Closes block := by
        rw [Closes, Nat.div_eq_of_lt right]
        exact Nat.not_lt_zero _
      rw [bytesBefore, ih, if_neg open_]

/-- Before the threshold is reached, everything that was appended is held. -/
theorem afterTurns_unflushed {block : Nat} (below : input.bytesBefore block < hisMemThreshold) :
    input.afterTurns block =
      some ⟨.holding (input.before input.nodeLists block),
        .holding (input.before input.edgeLists block), input.bytesBefore block⟩ := by
  induction block with
  | zero => rfl
  | succ block ih =>
      have bound : input.bytesBefore block < hisMemThreshold :=
        Nat.lt_of_le_of_lt (Nat.le_add_right _ _) below
      rw [afterTurns, ih bound, Option.bind_some, turn]
      by_cases closes : input.Closes block
      · rw [bytesBefore, if_pos closes] at below
        simp only [if_pos closes, appendWindow, foldl_append_holding,
          if_neg (Nat.not_le_of_lt below), before, bytesBefore]
      · simp only [if_neg closes, if_neg (Nat.not_le_of_lt bound), before, bytesBefore,
          List.append_nil, Nat.add_zero]

theorem genFeatures_unflushed (below : input.bytesBefore input.blockNum < hisMemThreshold) :
    input.genFeatures =
      ((His.holding (input.all input.nodeLists)).streamExtract input.nodeWindowSize).bind
        fun node => (input.extractEdges (.holding (input.all input.edgeLists))).map fun edge =>
          ⟨node, edge, input.bytesBefore input.blockNum + input.windowBytes input.blockNum⟩ := by
  rw [genFeatures, afterTurns_unflushed below]
  simp only [Option.bind_eq_bind, Option.bind_some, appendWindow, foldl_append_holding, all,
    Option.map_eq_bind]
  rfl

/-! ## The windows of a run -/

theorem start_succ (block : Nat) :
    (input.after (block + 1)).bucketCacheStart =
      if input.Closes block then block else (input.after block).bucketCacheStart := by
  rw [PlanInput.after, PlanInput.step, apply_ite PlanState.bucketCacheStart]
  rfl

/-- The open window has the blocks since it began. -/
theorem bucketHis_eq (block : Nat) :
    (input.after block).bucketHis =
        List.range' (input.after block).bucketCacheStart
          (block - (input.after block).bucketCacheStart) ∧
      (input.after block).bucketCacheStart ≤ block ∧
        (0 < block → (input.after block).bucketCacheStart < block) := by
  induction block with
  | zero => exact ⟨rfl, Nat.le_refl 0, nofun⟩
  | succ block ih =>
      obtain ⟨blocks, below, -⟩ := ih
      rw [PlanInput.after, PlanInput.step]
      by_cases closes : (input.after block).preThresholdNum < input.right block / threshold
      · rw [if_pos closes]
        refine ⟨?_, Nat.le_succ block, fun _ => Nat.lt_succ_self block⟩
        simp only [Nat.add_sub_cancel_left, List.range'_one]
      · rw [if_neg closes]
        refine ⟨?_, Nat.le_succ_of_le below, fun _ => Nat.lt_succ_of_le below⟩
        obtain ⟨count, more⟩ : ∃ count, block = (input.after block).bucketCacheStart + count :=
          ⟨_, (Nat.add_sub_cancel' below).symm⟩
        simp only [blocks]
        rw [show block + 1 - (input.after block).bucketCacheStart =
          block - (input.after block).bucketCacheStart + 1 by omega, List.range'_concat]
        congr 2
        omega

/-- What a side appends when a window closes. -/
def Shape (input : FlushInput) (side : FeatSide) (lists : Nat → List Listed) : Prop :=
  ∀ block, ∃ files, lists block =
    windowLists side files (input.after block).bucketCacheStart (input.after block).bucketHis

theorem shape_node : input.Shape .node input.nodeLists := fun _ => ⟨_, rfl⟩

theorem shape_edge (hasEf : input.hasEf = true) : input.Shape .edge input.edgeLists := by
  intro block
  refine ⟨(input.closeWindow (input.after block)).edge.files, ?_⟩
  rw [edgeLists, if_pos hasEf]
  rfl

section Order

variable {side : FeatSide} {lists : Nat → List Listed}

theorem Shape.ne_nil (shape : input.Shape side lists) (block : Nat) : lists block ≠ [] := by
  obtain ⟨files, own⟩ := shape block
  simp [own, windowLists]

theorem Shape.all_ne_nil (shape : input.Shape side lists) : input.all lists ≠ [] :=
  List.append_ne_nil_of_right_ne_nil _ (shape.ne_nil _)

/-- If the first turn closes nothing, the lists are in order before every turn. -/
theorem Shape.before (shape : input.Shape side lists) (late : ¬input.Closes 0) (block : Nat) :
    Ordered side (input.before lists block) (input.after block).bucketCacheStart := by
  induction block with
  | zero => exact ordered_nil side
  | succ block ih =>
      obtain ⟨blocks, -, start⟩ := input.bucketHis_eq block
      rw [FlushInput.before, start_succ]
      by_cases closes : input.Closes block
      · have positive : 0 < block := Nat.pos_of_ne_zero fun zero => late (zero ▸ closes)
        have room := start positive
        obtain ⟨files, own⟩ := shape block
        have next := ih.window files (Nat.sub_pos_of_lt room)
        rw [Nat.add_sub_cancel' (Nat.le_of_lt room)] at next
        rw [if_pos closes, if_pos closes, own, blocks]
        exact next
      · rw [if_neg closes, if_neg closes, List.append_nil]
        exact ih

/-- If the first turn closes nothing, every list of the run gets the opened path. -/
theorem Shape.jobs (shape : input.Shape side lists) (late : ¬input.Closes 0) :
    (His.holding (input.all lists)).jobs =
        (input.all lists).map (fun list => (list.1, list.2.opened)) ∧
      ((input.all lists).map Prod.snd).Nodup := by
  obtain ⟨blocks, -, start⟩ := input.bucketHis_eq input.blockNum
  obtain ⟨files, own⟩ := shape input.blockNum
  rcases Nat.eq_zero_or_pos input.blockNum with none_ | positive
  · rw [all, own, none_]
    exact ⟨rfl, List.nodup_singleton _⟩
  · have ordered := (shape.before late input.blockNum).window files
      (Nat.sub_pos_of_lt (start positive))
    rw [← blocks, ← own] at ordered
    exact ⟨ordered.jobs shape.all_ne_nil, ordered.distinct⟩

theorem Shape.sides (shape : input.Shape side lists) :
    ∀ list ∈ input.all lists, list.2.side = side := by
  have turn : ∀ block, ∀ list ∈ lists block, list.2.side = side := by
    intro block list member
    obtain ⟨files, own⟩ := shape block
    exact side_windowLists (own ▸ member)
  have early : ∀ block, ∀ list ∈ input.before lists block, list.2.side = side := by
    intro block
    induction block with
    | zero => nofun
    | succ block ih =>
        intro list member
        rcases List.mem_append.mp member with old | new
        · exact ih list old
        · split at new
          · exact turn block list new
          · cases new
  intro list member
  rcases List.mem_append.mp member with old | new
  · exact early _ list old
  · exact turn _ list new

/-- What takes a path again, or has one twice, has no distinct paths. -/
theorem not_nodup_append {paths more : List SavePath} {path : SavePath} (member : path ∈ paths)
    (again : path ∈ more ∨ ¬paths.Nodup) : ¬(paths ++ more).Nodup := by
  rw [List.nodup_append]
  rintro ⟨distinct, -, apart⟩
  rcases again with second | twice
  · exact apart _ member _ second rfl
  · exact twice distinct

/-- If the first turn closes a window, the next window has the same first block. -/
theorem Shape.not_nodup (shape : input.Shape side lists) (closes : input.Closes 0) :
    ¬((input.all lists).map Prod.snd).Nodup := by
  have cache : ∀ block, .cache side (input.after block).bucketCacheStart ∈
      (lists block).map Prod.snd := by
    intro block
    obtain ⟨files, own⟩ := shape block
    rw [own, map_snd_windowLists]
    exact List.mem_append_right _ (List.mem_singleton.mpr rfl)
  have reopened (block : Nat) (start : (input.after block).bucketCacheStart = 0) :
      .cache side 0 ∈ (lists block).map Prod.snd := start ▸ cache block
  -- The path is taken, and the open window takes it again or another one has.
  have taken : ∀ block, .cache side 0 ∈ (input.before lists (block + 1)).map Prod.snd ∧
      ((input.after (block + 1)).bucketCacheStart = 0 ∨
        ¬((input.before lists (block + 1)).map Prod.snd).Nodup) := by
    intro block
    induction block with
    | zero =>
        rw [FlushInput.before, start_succ, if_pos closes, if_pos closes]
        exact ⟨cache 0, Or.inl rfl⟩
    | succ block ih =>
        obtain ⟨member, again⟩ := ih
        rw [FlushInput.before, start_succ, List.map_append]
        by_cases next : input.Closes (block + 1)
        · rw [if_pos next, if_pos next]
          refine ⟨List.mem_append_left _ member, Or.inr (not_nodup_append member ?_)⟩
          exact again.imp_left (reopened (block + 1))
        · rw [if_neg next, if_neg next, List.map_nil, List.append_nil]
          exact ⟨member, again⟩
  have positive : 0 < input.blockNum := by
    have reached : 0 < input.right 0 / threshold := closes
    have right : 0 < input.right 0 := Nat.pos_of_ne_zero fun zero => by simp [zero] at reached
    rw [PlanInput.right, Nat.zero_add, Nat.one_mul, Nat.lt_min] at right
    exact Nat.div_pos (by omega) right.2
  obtain ⟨block, last⟩ : ∃ block, input.blockNum = block + 1 :=
    ⟨_, (Nat.sub_add_cancel positive).symm⟩
  obtain ⟨member, again⟩ := taken block
  rw [all, last, List.map_append]
  exact not_nodup_append member (again.imp_left (reopened (block + 1)))

end Order

/-! ## Turns after a flush -/

end FlushInput

/-- The first path has been used up, and is still the first. -/
def His.Flushed (his : His) : Prop :=
  ∃ first rest, his.savePaths = first :: rest ∧ first.plain ∈ his.saved.map Prod.snd

theorem streamExtract_eq {his next : His} {windowSize : Nat}
    (run : his.streamExtract windowSize = some next) :
    next = { his with saved := his.saved ++ if 0 < windowSize then his.jobs else [] } := by
  obtain ⟨largest, -, item⟩ := Option.bind_eq_some_iff.mp run
  obtain ⟨_, -, same⟩ := Option.bind_eq_some_iff.mp item
  exact (Option.some.inj same).symm

theorem flushed_of_streamExtract {his next : His} {windowSize : Nat}
    (run : his.streamExtract windowSize = some next) (window : 0 < windowSize)
    (occupied : his.ids ≠ []) (paths : his.savePaths ≠ []) : next.Flushed := by
  obtain ⟨first, rest, named⟩ := List.exists_cons_of_ne_nil paths
  obtain rfl := streamExtract_eq run
  refine ⟨first, rest, named, ?_⟩
  rw [if_pos window, List.map_append]
  exact List.mem_append_right _ (head_mem_jobs named occupied)

theorem His.Flushed.streamExtract {his next : His} {windowSize : Nat} (flushed : his.Flushed)
    (run : his.streamExtract windowSize = some next) : next.Flushed := by
  obtain ⟨first, rest, named, used⟩ := flushed
  obtain rfl := streamExtract_eq run
  refine ⟨first, rest, named, ?_⟩
  rw [List.map_append]
  exact List.mem_append_left _ used

theorem His.Flushed.appendAll {his : His} (flushed : his.Flushed) (lists : List Listed) :
    (lists.foldl His.append his).Flushed := by
  obtain ⟨first, rest, named, used⟩ := flushed
  rw [foldl_append]
  exact ⟨first, rest ++ lists.map Prod.snd, by simp [named], used⟩

/-- The next lists are saved under the first path again. -/
theorem His.Flushed.not_nodup {his next : His} {windowSize : Nat} (flushed : his.Flushed)
    (run : his.streamExtract windowSize = some next) (window : 0 < windowSize)
    (occupied : his.ids ≠ []) : ¬(next.saved.map Prod.snd).Nodup := by
  obtain ⟨first, rest, named, used⟩ := flushed
  obtain rfl := streamExtract_eq run
  rw [if_pos window, List.map_append, List.nodup_append]
  rintro ⟨-, -, apart⟩
  exact apart _ used _ (head_mem_jobs named occupied) rfl

namespace FlushInput

variable {input : FlushInput}

theorem flush_node {state next : FlushState} (run : input.flush state = some next) :
    ∃ node, state.node.streamExtract input.nodeWindowSize = some node ∧
      next.node = node.clear := by
  obtain ⟨node, extract, rest⟩ := Option.bind_eq_some_iff.mp run
  obtain ⟨edge, -, same⟩ := Option.bind_eq_some_iff.mp rest
  exact ⟨node, extract, (Option.some.inj same) ▸ rfl⟩

/-- A turn keeps what appending the lists of a window and flushing keep. -/
theorem turn_node {P : His → Prop} {block : Nat} {state next : FlushState}
    (turn : input.turn block state = some next) (holds : P state.node)
    (appended : P ((input.nodeLists block).foldl His.append state.node))
    (flushed : ∀ his node, P his → his.streamExtract input.nodeWindowSize = some node →
      P node.clear) : P next.node := by
  have kept : P (if input.Closes block then input.appendWindow block state else state).node := by
    split
    · exact appended
    · exact holds
  rw [FlushInput.turn] at turn
  generalize (if input.Closes block then input.appendWindow block state else state) =
    appended at turn kept
  by_cases full : hisMemThreshold ≤ appended.hisMemByte
  · obtain ⟨node, extract, cleared⟩ := flush_node ((if_pos full).symm.trans turn)
    rw [cleared]
    exact flushed _ node kept extract
  · exact Option.some.inj ((if_neg full).symm.trans turn) ▸ kept

/-- Once the threshold has been reached, the first path of the nodes is used up. -/
theorem afterTurns_cases (window : 0 < input.nodeWindowSize) {block : Nat} {state : FlushState}
    (run : input.afterTurns block = some state) :
    input.bytesBefore block < hisMemThreshold ∨ state.node.Flushed := by
  induction block generalizing state with
  | zero => exact Or.inl (Nat.pow_pos_iff.mpr (Or.inl (by decide)) |> Nat.mul_pos (by decide))
  | succ block ih =>
      by_cases below : input.bytesBefore (block + 1) < hisMemThreshold
      · exact Or.inl below
      · obtain ⟨earlier, turns, turn⟩ := Option.bind_eq_some_iff.mp run
        refine Or.inr ?_
        rcases ih turns with bound | flushed
        · rw [FlushInput.turn] at turn
          rw [afterTurns_unflushed bound] at turns
          obtain rfl := Option.some.inj turns
          by_cases closes : input.Closes block
          · rw [bytesBefore, if_pos closes] at below
            simp only [if_pos closes, appendWindow, foldl_append_holding,
              if_pos (Nat.le_of_not_lt below)] at turn
            obtain ⟨node, extract, cleared⟩ := flush_node turn
            have held : input.before input.nodeLists block ++ input.nodeLists block ≠ [] :=
              List.append_ne_nil_of_right_ne_nil _ (shape_node.ne_nil block)
            have next : node.Flushed := flushed_of_streamExtract extract window
              (mt List.map_eq_nil_iff.mp held : (His.holding _).ids ≠ [])
              (mt List.map_eq_nil_iff.mp held : (His.holding _).savePaths ≠ [])
            rw [cleared]
            exact next
          · rw [bytesBefore, if_neg closes] at below
            exact absurd bound below
        · refine turn_node turn flushed (flushed.appendAll _) fun his node kept extract => ?_
          have next : node.Flushed := kept.streamExtract extract
          exact next

/-- Without a window no node list is ever saved. -/
theorem saved_eq_nil (window : input.nodeWindowSize = 0) {block : Nat} {state : FlushState}
    (run : input.afterTurns block = some state) : state.node.saved = [] := by
  induction block generalizing state with
  | zero => exact Option.some.inj run ▸ rfl
  | succ block ih =>
      obtain ⟨earlier, turns, turn⟩ := Option.bind_eq_some_iff.mp run
      have none_ : earlier.node.saved = [] := ih turns
      refine turn_node (P := fun his => his.saved = []) turn none_ ?_ ?_
      · rw [foldl_append]
        exact none_
      · intro his node kept extract
        rw [streamExtract_eq extract, window, if_neg (Nat.lt_irrefl 0), List.append_nil]
        exact kept

/-- What the run does at its end. -/
theorem genFeatures_cases {ended : FlushState} (run : input.genFeatures = some ended) :
    ∃ state, input.afterTurns input.blockNum = some state ∧
      ((input.nodeLists input.blockNum).foldl His.append state.node).streamExtract
        input.nodeWindowSize = some ended.node := by
  obtain ⟨state, turns, rest⟩ := Option.bind_eq_some_iff.mp run
  obtain ⟨node, extract, rest⟩ := Option.bind_eq_some_iff.mp rest
  obtain ⟨edge, -, same⟩ := Option.bind_eq_some_iff.mp rest
  exact ⟨state, turns, Option.some.inj same ▸ extract⟩

/-- The books need a window. -/
theorem window_of_kept {ended : FlushState} (run : input.genFeatures = some ended)
    (kept : ended.Kept) : 0 < input.nodeWindowSize := by
  obtain ⟨state, turns, extract⟩ := genFeatures_cases run
  by_contra none_
  have window : input.nodeWindowSize = 0 := by omega
  have books := kept.node
  rw [His.Kept, streamExtract_eq extract, foldl_append] at books
  simp only [saved_eq_nil window turns, window, Nat.lt_irrefl, if_false, List.append_nil,
    List.nil_perm, List.map_eq_nil_iff, List.append_eq_nil_iff] at books
  exact shape_node.ne_nil _ books.2

/-- After a flush in the loop one file is written for two lists. -/
theorem saved_twice (window : 0 < input.nodeWindowSize)
    (reached : hisMemThreshold ≤ input.bytesBefore input.blockNum)
    {ended : FlushState} (run : input.genFeatures = some ended) :
    ¬(ended.node.saved.map Prod.snd).Nodup := by
  obtain ⟨state, turns, extract⟩ := genFeatures_cases run
  rcases afterTurns_cases window turns with below | flushed
  · exact absurd reached (Nat.not_le_of_lt below)
  · have again := flushed.appendAll (input.nodeLists input.blockNum)
    have occupied : ((input.nodeLists input.blockNum).foldl His.append state.node).ids ≠ [] := by
      rw [foldl_append]
      exact List.append_ne_nil_of_right_ne_nil _
        (mt List.map_eq_nil_iff.mp (shape_node.ne_nil _))
    exact again.not_nodup extract window occupied

/-- A flush in the loop ruins the books. -/
theorem not_kept_of_flush (reached : hisMemThreshold ≤ input.bytesBefore input.blockNum)
    {ended : FlushState} (run : input.genFeatures = some ended) : ¬ended.Kept := by
  intro kept
  have distinct := kept.distinct
  rw [List.map_append] at distinct
  exact saved_twice (window_of_kept run kept) reached run distinct.of_append_left

/-! ## The books of a run -/

theorem not_closes_iff : ¬input.Closes 0 ↔ input.right 0 < threshold := by
  have first : input.Closes 0 ↔ 0 < input.right 0 / threshold := Iff.rfl
  rw [first, Nat.div_pos_iff]
  have positive : 0 < threshold := by decide
  omega

theorem edge_all_eq_nil (none_ : input.hasEf = false) : input.all input.edgeLists = [] := by
  have turn : ∀ block, input.edgeLists block = [] := by
    intro block
    simp [edgeLists, none_]
  have early : ∀ block, input.before input.edgeLists block = [] := by
    intro block
    induction block with
    | zero => rfl
    | succ block ih => rw [FlushInput.before, ih, turn, ite_self, List.append_nil]
  rw [all, early, turn, List.append_nil]

/-- One side at the end of a run whose books are right. -/
structure Books (side : FeatSide) (lists : List Listed) (his : His) : Prop where
  saved : his.saved = lists.map fun list => (list.1, list.2.opened)
  appended : his.appended = lists
  distinct : (lists.map Prod.snd).Nodup
  sides : ∀ list ∈ lists, list.2.side = side

theorem Books.kept {side : FeatSide} {lists : List Listed} {his : His}
    (books : Books side lists his) : his.Kept := by
  rw [His.Kept, books.saved, books.appended]

theorem Books.paths {side : FeatSide} {lists : List Listed} {his : His}
    (books : Books side lists his) :
    his.saved.map Prod.snd = (lists.map Prod.snd).map SavePath.opened := by
  rw [books.saved, List.map_map, List.map_map]
  rfl

/-- The two sides save no common file. -/
theorem kept_of_books {nodes edges : List Listed} {ended : FlushState}
    (node : Books .node nodes ended.node) (edge : Books .edge edges ended.edge) : ended.Kept where
  node := node.kept
  edge := edge.kept
  distinct := by
    rw [List.map_append, node.paths, edge.paths, ← List.map_append]
    refine List.Nodup.map opened_injective (node.distinct.append edge.distinct ?_)
    intro path ofNode ofEdge
    obtain ⟨list, held, rfl⟩ := List.mem_map.mp ofNode
    obtain ⟨other, held', same⟩ := List.mem_map.mp ofEdge
    have nodeSide := node.sides list held
    rw [← same, edge.sides other held'] at nodeSide
    cases nodeSide

/-- One side in a run without a flush in the loop. -/
theorem Shape.books {side : FeatSide} {lists : Nat → List Listed} {windowSize : Nat}
    (shape : input.Shape side lists) (late : ¬input.Closes 0) (window : 0 < windowSize)
    (found : ¬MaxIsInt ((input.all lists).map Prod.fst)) :
    ∃ his, (His.holding (input.all lists)).streamExtract windowSize = some his ∧
      Books side (input.all lists) his := by
  rw [streamExtract_holding shape.all_ne_nil, if_neg found, if_pos window]
  obtain ⟨jobs, distinct⟩ := shape.jobs late
  exact ⟨_, rfl, jobs, rfl, distinct, shape.sides⟩

/-- The edges, with edge features or without. -/
theorem edge_books (late : ¬input.Closes 0)
    (edges : input.hasEf = true → 0 < input.edgeWindowSize ∧
      ¬MaxIsInt ((input.all input.edgeLists).map Prod.fst)) :
    ∃ his, input.extractEdges (.holding (input.all input.edgeLists)) = some his ∧
      Books .edge (input.all input.edgeLists) his := by
  cases hasEf : input.hasEf with
  | false =>
      have none_ : ¬(input.hasEf = true ∧ 0 < input.edgeWindowSize) := by simp [hasEf]
      rw [extractEdges, if_neg none_, edge_all_eq_nil hasEf]
      exact ⟨_, rfl, rfl, rfl, List.nodup_nil, nofun⟩
  | true =>
      obtain ⟨window, found⟩ := edges hasEf
      rw [extractEdges, if_pos ⟨hasEf, window⟩]
      exact (shape_edge hasEf).books late window found

/-- The bookkeeping of a run is right exactly if no flush happens in the loop, the first
block ends before a window closes, there are windows to extract, and the largest id is
found. -/
theorem kept_iff (input : FlushInput) :
    (∃ ended, input.genFeatures = some ended ∧ ended.Kept) ↔
      input.bytesBefore input.blockNum < hisMemThreshold ∧ input.right 0 < threshold ∧
        0 < input.nodeWindowSize ∧ ¬MaxIsInt ((input.all input.nodeLists).map Prod.fst) ∧
        (input.hasEf = true → 0 < input.edgeWindowSize ∧
          ¬MaxIsInt ((input.all input.edgeLists).map Prod.fst)) := by
  have nodes : input.all input.nodeLists ≠ [] := shape_node.all_ne_nil
  constructor
  · rintro ⟨ended, run, kept⟩
    have window := window_of_kept run kept
    have below : input.bytesBefore input.blockNum < hisMemThreshold := by
      by_contra reached
      exact not_kept_of_flush (Nat.le_of_not_lt reached) run kept
    rw [genFeatures_unflushed below] at run
    obtain ⟨node, extractNode, rest⟩ := Option.bind_eq_some_iff.mp run
    obtain ⟨edge, extractEdge, rfl⟩ := Option.map_eq_some_iff.mp rest
    have appended : node.appended = input.all input.nodeLists := by
      rw [streamExtract_eq extractNode]
      rfl
    refine ⟨below, ?_, window, ?_, ?_⟩
    · by_contra early
      have closes : input.Closes 0 := by
        by_contra late
        exact early (not_closes_iff.mp late)
      have distinct := kept.distinct
      rw [List.map_append] at distinct
      have saved := (kept.node.map Prod.snd).nodup_iff.mp distinct.of_append_left
      rw [List.map_map, appended] at saved
      refine shape_node.not_nodup closes (List.Nodup.of_map SavePath.opened ?_)
      rwa [List.map_map]
    · intro raises
      rw [streamExtract_holding nodes, if_pos raises] at extractNode
      cases extractNode
    · intro hasEf
      have edges := (shape_edge hasEf).all_ne_nil
      have positive : 0 < input.edgeWindowSize := by
        by_contra none_
        rw [extractEdges, if_neg fun both => none_ both.2] at extractEdge
        obtain rfl := Option.some.inj extractEdge
        have books := kept.edge
        simp only [His.Kept, His.holding, List.nil_perm, List.map_eq_nil_iff] at books
        exact edges books
      refine ⟨positive, ?_⟩
      intro raises
      rw [extractEdges, if_pos ⟨hasEf, positive⟩, streamExtract_holding edges,
        if_pos raises] at extractEdge
      cases extractEdge
  · rintro ⟨below, first, window, found, edges⟩
    have late := not_closes_iff.mpr first
    obtain ⟨node, extractNode, nodeBooks⟩ := shape_node.books late window found
    obtain ⟨edge, extractEdge, edgeBooks⟩ := edge_books late edges
    rw [genFeatures_unflushed below, extractNode, Option.bind_some, extractEdge]
    exact ⟨_, rfl, kept_of_books nodeBooks edgeBooks⟩

end FlushInput

end Dolphin.Cache
