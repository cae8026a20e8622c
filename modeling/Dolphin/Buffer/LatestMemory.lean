import Dolphin.Buffer.MailBox

/-!
# The latest memory of a node

An update should leave every node the row and the time of its latest event. It keeps the
last entry of a node in the list of all sources followed by all destinations: a node that
is a source after it was a destination keeps what was computed for the earlier event.
-/

namespace Dolphin.Buffer

open Dolphin.Memory Dolphin.Semantics Dolphin.Tensor

/-- The edges of a batch and what the memory updater leaves for them. -/
structure MemoryBatch (α : Type) where
  edges : EdgeBatch α
  updated : LastUpdated α edges

namespace MemoryBatch

variable {α : Type}

/-- A row that was computed for a node in one of its events. -/
def ComputedFor (batch : MemoryBatch α) (v e : Nat) (memory : List α) : Prop :=
  batch.edges.src[e]? = some v ∧ batch.updated.memory[e]? = some memory ∨
    batch.edges.dst[e]? = some v ∧
      batch.updated.memory[batch.edges.src.length + e]? = some memory

/-- No node is a source after it was a destination for the last time, unless the row and
the time of the two events are the same. -/
def RoleOrdered (batch : MemoryBatch α) : Prop :=
  ∀ v s d, LastAt batch.edges.src v s → LastAt batch.edges.dst v d → d < s →
    batch.updated.memory[batch.edges.src.length + d]? = batch.updated.memory[s]? ∧
      batch.edges.times[d]? = batch.edges.times[s]?

/-- The times do not decrease, in a batch or from one batch to the next. -/
def Chronological (batches : List (MemoryBatch α)) [LE α] : Prop :=
  (batches.flatMap fun batch => batch.edges.times).Pairwise (· ≤ ·)

instance [LE α] [DecidableLE α] (batches : List (MemoryBatch α)) :
    Decidable (Chronological batches) :=
  inferInstanceAs (Decidable ((batches.flatMap fun batch => batch.edges.times).Pairwise (· ≤ ·)))

end MemoryBatch

namespace MailBox

variable {φ ψ α : Type} [Inhabited α]

/-- `update_memory` after every batch of a sequence. -/
def runMemory (box : MailBox φ ψ α) (batches : List (MemoryBatch α)) : MailBox φ ψ α :=
  batches.foldl (fun box batch => box.memoryStep batch.edges batch.updated) box

/-- An update leaves every node of the batch the row and the time of its latest event, and
all other rows as they were. -/
structure KeepsLatest [LE α] (batch : MemoryBatch α) (before after : MailBox φ ψ α) : Prop where
  latest : ∀ v e, batch.edges.LastEvent v e → ∃ memory time,
    batch.ComputedFor v e memory ∧ batch.edges.times[e]? = some time ∧
      after.store.row v = { before.store.row v with memory := memory, memoryTs := time }
  maximum : ∀ v e time, batch.edges.HasEvent v e → batch.edges.times[e]? = some time →
    time ≤ (after.store.row v).memoryTs
  others : ∀ v, before.store.Has v → (∀ e, ¬batch.edges.HasEvent v e) →
    after.store.row v = before.store.row v

/-- Every update of a sequence does, and the time of a node that has had an event never
decreases. -/
structure LatestKept [LE α] (box : MailBox φ ψ α) (batches : List (MemoryBatch α)) : Prop where
  step : ∀ front batch back, batches = front ++ batch :: back →
    KeepsLatest batch (box.runMemory front) (box.runMemory (front ++ [batch]))
  monotone : ∀ front middle back, batches = front ++ middle ++ back →
    ∀ v, (∃ batch ∈ front, ∃ e, batch.edges.HasEvent v e) →
      ((box.runMemory front).store.row v).memoryTs ≤
        ((box.runMemory (front ++ middle)).store.row v).memoryTs

/-! ## One batch -/

section Step

variable {box : MailBox φ ψ α} {batch : MemoryBatch α}

/-- What an update leaves a node of the batch. -/
theorem memoryStep_kept (formed : box.store.Formed)
    (inStore : ∀ v ∈ batch.edges.src ++ batch.edges.dst, box.store.Has v) {v i : Nat}
    (last : LastAt (batch.edges.src ++ batch.edges.dst) v i) :
    ∃ memory time, batch.updated.memory[i]? = some memory ∧
      (batch.edges.times ++ batch.edges.times)[i]? = some time ∧
      (box.memoryStep batch.edges batch.updated).store.row v =
        { box.store.row v with memory := memory, memoryTs := time } := by
  have bound : i < batch.edges.src.length * 2 := batch.edges.nodes_length ▸ last.lt
  have timed : i < (batch.edges.times ++ batch.edges.times).length :=
    batch.edges.times_length.symm ▸ bound
  have row := List.getElem?_eq_getElem (bound.trans_le batch.updated.sized)
  have time := List.getElem?_eq_getElem timed
  exact ⟨_, _, row, time, memoryStep_row formed inStore last row time⟩

/-- The time it has then is one of the batch. -/
theorem memoryStep_memoryTs (formed : box.store.Formed)
    (inStore : ∀ v ∈ batch.edges.src ++ batch.edges.dst, box.store.Has v) {v : Nat}
    (member : v ∈ batch.edges.src ++ batch.edges.dst) :
    ((box.memoryStep batch.edges batch.updated).store.row v).memoryTs ∈ batch.edges.times := by
  obtain ⟨i, last⟩ := LastAt.of_mem member
  obtain ⟨memory, time, -, timed, row⟩ := memoryStep_kept formed inStore last
  rw [row]
  simpa using List.mem_of_getElem? timed

/-- A destination keeps the row of its last event as a destination. -/
theorem memoryStep_destination (formed : box.store.Formed)
    (inStore : ∀ v ∈ batch.edges.src ++ batch.edges.dst, box.store.Has v) {v d : Nat}
    (last : LastAt batch.edges.dst v d) :
    ∃ memory time, batch.updated.memory[batch.edges.src.length + d]? = some memory ∧
      batch.edges.times[d]? = some time ∧
      (box.memoryStep batch.edges batch.updated).store.row v =
        { box.store.row v with memory := memory, memoryTs := time } := by
  obtain ⟨memory, time, row, timed, kept⟩ := memoryStep_kept formed inStore last.append_right
  rw [← batch.edges.timesSized, List.getElem?_append_right (Nat.le_add_right _ _),
    Nat.add_sub_cancel_left] at timed
  exact ⟨memory, time, row, timed, kept⟩

/-- A node that is no destination keeps the row of its last event. -/
theorem memoryStep_source (formed : box.store.Formed)
    (inStore : ∀ v ∈ batch.edges.src ++ batch.edges.dst, box.store.Has v) {v s : Nat}
    (last : LastAt batch.edges.src v s) (other : v ∉ batch.edges.dst) :
    ∃ memory time, batch.updated.memory[s]? = some memory ∧
      batch.edges.times[s]? = some time ∧
      (box.memoryStep batch.edges batch.updated).store.row v =
        { box.store.row v with memory := memory, memoryTs := time } := by
  obtain ⟨memory, time, row, timed, kept⟩ :=
    memoryStep_kept formed inStore (last.append_left other)
  rw [List.getElem?_append_left (batch.edges.timesSized.symm ▸ last.lt)] at timed
  exact ⟨memory, time, row, timed, kept⟩

/-- An update that keeps the latest rows was of a batch with ordered roles. -/
theorem KeepsLatest.roleOrdered [LE α] (formed : box.store.Formed)
    (inStore : ∀ v ∈ batch.edges.src ++ batch.edges.dst, box.store.Has v)
    (keeps : KeepsLatest batch box (box.memoryStep batch.edges batch.updated)) :
    batch.RoleOrdered := by
  intro v s d source destination before
  have last : batch.edges.LastEvent v s := by
    refine ⟨.inl source.1, fun f role => ?_⟩
    rcases role with role | role
    · exact source.2 f role
    · exact (destination.2 f role).trans before.le
  obtain ⟨memory, time, computed, timed, row⟩ := keeps.latest v s last
  obtain ⟨kept, keptTime, inMemory, inTimes, keptRow⟩ :=
    memoryStep_destination formed inStore destination
  rw [keptRow] at row
  obtain ⟨rfl, rfl⟩ : kept = memory ∧ keptTime = time :=
    ⟨congrArg NodeMem.memory row, congrArg NodeMem.memoryTs row⟩
  have own : batch.updated.memory[s]? = some kept := by
    rcases computed with ⟨-, computed⟩ | ⟨role, -⟩
    · exact computed
    · exact absurd (destination.2 s role) (Nat.not_le_of_lt before)
  exact ⟨inMemory.trans own.symm, inTimes.trans timed.symm⟩

/-- With ordered roles a node keeps what was computed for its latest event. -/
theorem memoryStep_latest (formed : box.store.Formed)
    (inStore : ∀ v ∈ batch.edges.src ++ batch.edges.dst, box.store.Has v)
    (ordered : batch.RoleOrdered) {v e : Nat} (last : batch.edges.LastEvent v e) :
    ∃ memory time, batch.ComputedFor v e memory ∧ batch.edges.times[e]? = some time ∧
      (box.memoryStep batch.edges batch.updated).store.row v =
        { box.store.row v with memory := memory, memoryTs := time } := by
  obtain ⟨event, greatest⟩ := last
  have lastSource (role : batch.edges.src[e]? = some v) : LastAt batch.edges.src v e :=
    ⟨role, fun f found => greatest f (.inl found)⟩
  by_cases isDst : v ∈ batch.edges.dst
  · obtain ⟨d, destination⟩ := LastAt.of_mem isDst
    obtain ⟨memory, time, row, timed, kept⟩ := memoryStep_destination formed inStore destination
    rcases (greatest d (.inr destination.1)).eq_or_lt with rfl | before
    · exact ⟨memory, time, .inr ⟨destination.1, row⟩, timed, kept⟩
    · have role : batch.edges.src[e]? = some v := event.resolve_right fun role =>
        absurd (destination.2 e role) (Nat.not_le_of_lt before)
      obtain ⟨sameRow, sameTime⟩ := ordered v e d (lastSource role) destination before
      exact ⟨memory, time, .inl ⟨role, sameRow.symm.trans row⟩, sameTime.symm.trans timed, kept⟩
  · have role : batch.edges.src[e]? = some v := event.resolve_right fun role =>
      isDst (List.mem_of_getElem? role)
    obtain ⟨memory, time, row, timed, kept⟩ :=
      memoryStep_source formed inStore (lastSource role) isDst
    exact ⟨memory, time, .inl ⟨role, row⟩, timed, kept⟩

/-- An update keeps what it should exactly for batches with ordered roles. -/
theorem keepsLatest_iff [Preorder α] (formed : box.store.Formed)
    (inStore : ∀ v ∈ batch.edges.src ++ batch.edges.dst, box.store.Has v)
    (chronological : batch.edges.times.Pairwise (· ≤ ·)) :
    KeepsLatest batch box (box.memoryStep batch.edges batch.updated) ↔ batch.RoleOrdered := by
  refine ⟨fun keeps => keeps.roleOrdered formed inStore, fun ordered => ⟨?_, ?_, ?_⟩⟩
  · intro v e last
    exact memoryStep_latest formed inStore ordered last
  · intro v f time event timed
    obtain ⟨e, last⟩ := EdgeBatch.exists_lastEvent event
    obtain ⟨memory, latest, -, atLatest, row⟩ := memoryStep_latest formed inStore ordered last
    rw [row]
    obtain ⟨inTimes, rfl⟩ := List.getElem?_eq_some_iff.mp timed
    obtain ⟨inTimes', rfl⟩ := List.getElem?_eq_some_iff.mp atLatest
    rcases (last.2 f event).eq_or_lt with rfl | before
    · exact le_rfl
    · exact List.pairwise_iff_getElem.mp chronological f e inTimes inTimes' before
  · intro v has noEvent
    exact memoryStep_other formed inStore has (EdgeBatch.notMem_of_noEvent noEvent)

end Step

/-! ## A sequence of batches -/

section Run

variable {box : MailBox φ ψ α} {batches : List (MemoryBatch α)}

theorem runMemory_append (box : MailBox φ ψ α) (front back : List (MemoryBatch α)) :
    box.runMemory (front ++ back) = (box.runMemory front).runMemory back :=
  List.foldl_append

theorem runMemory_snoc (box : MailBox φ ψ α) (front : List (MemoryBatch α))
    (batch : MemoryBatch α) :
    box.runMemory (front ++ [batch]) =
      (box.runMemory front).memoryStep batch.edges batch.updated :=
  runMemory_append box front [batch]

/-- A run keeps the rows in the store. -/
theorem runMemory_store (formed : box.store.Formed) (batches : List (MemoryBatch α)) :
    (box.runMemory batches).store.Formed ∧
      ∀ v, (box.runMemory batches).store.Has v ↔ box.store.Has v := by
  induction batches generalizing box with
  | nil => exact ⟨formed, fun v => Iff.rfl⟩
  | cons batch batches ih =>
      have stepFormed : (box.memoryStep batch.edges batch.updated).store.Formed := by
        rw [memoryStep_eq]
        exact formed.update _
      obtain ⟨later, has⟩ := ih stepFormed
      refine ⟨later, fun v => (has v).trans ?_⟩
      rw [memoryStep_eq, RowStore.update_has]

/-- The nodes of the batches have rows. -/
def InStore (box : MailBox φ ψ α) (batches : List (MemoryBatch α)) : Prop :=
  ∀ batch ∈ batches, ∀ v ∈ batch.edges.src ++ batch.edges.dst, box.store.Has v

omit [Inhabited α] in
theorem InStore.front {front back : List (MemoryBatch α)} (inStore : box.InStore (front ++ back)) :
    box.InStore front :=
  fun batch member => inStore batch (List.mem_append_left _ member)

omit [Inhabited α] in
theorem InStore.has_touched (inStore : box.InStore batches) {v : Nat}
    (touched : ∃ batch ∈ batches, ∃ e, batch.edges.HasEvent v e) : box.store.Has v := by
  obtain ⟨batch, member, e, event⟩ := touched
  exact inStore batch member v event.mem

/-- The batches of a run are updates on nodes with rows. -/
theorem InStore.after (inStore : box.InStore batches) (front : List (MemoryBatch α))
    {batch : MemoryBatch α} (member : batch ∈ batches) (formed : box.store.Formed) :
    ∀ v ∈ batch.edges.src ++ batch.edges.dst, (box.runMemory front).store.Has v :=
  fun v inBatch => ((runMemory_store formed front).2 v).mpr (inStore batch member v inBatch)

/-- The time of a node that has had an event is the time of an event. -/
theorem memoryTs_mem (formed : box.store.Formed) (inStore : box.InStore batches) {v : Nat}
    (touched : ∃ batch ∈ batches, ∃ e, batch.edges.HasEvent v e) :
    ((box.runMemory batches).store.row v).memoryTs ∈
      batches.flatMap fun batch => batch.edges.times := by
  induction batches using List.reverseRecOn with
  | nil =>
      obtain ⟨batch, member, -⟩ := touched
      cases member
  | append_singleton front batch ih =>
      have here : batch ∈ front ++ [batch] := List.mem_append_right _ (List.mem_singleton_self _)
      have stepFormed := (runMemory_store formed front).1
      have stepInStore := inStore.after front here formed
      rw [runMemory_snoc, List.flatMap_append, List.mem_append]
      by_cases inBatch : v ∈ batch.edges.src ++ batch.edges.dst
      · have member := memoryStep_memoryTs stepFormed stepInStore inBatch
        exact .inr (List.mem_flatMap.mpr ⟨batch, List.mem_singleton_self _, member⟩)
      · have before : ∃ batch ∈ front, ∃ e, batch.edges.HasEvent v e := by
          obtain ⟨other, member, e, event⟩ := touched
          rcases List.mem_append.mp member with inFront | last
          · exact ⟨other, inFront, e, event⟩
          · rw [List.mem_singleton.mp last] at event
            exact absurd event.mem inBatch
        have has := ((runMemory_store formed front).2 v).mpr (inStore.has_touched touched)
        rw [memoryStep_other stepFormed stepInStore has inBatch]
        exact .inl (ih inStore.front before)

/-- The time of a node that has had an event never decreases, whatever its roles are. -/
theorem memoryTs_monotone [Preorder α] (formed : box.store.Formed)
    {front middle : List (MemoryBatch α)} (inStore : box.InStore (front ++ middle))
    (chronological : MemoryBatch.Chronological (front ++ middle)) {v : Nat}
    (touched : ∃ batch ∈ front, ∃ e, batch.edges.HasEvent v e) :
    ((box.runMemory front).store.row v).memoryTs ≤
      ((box.runMemory (front ++ middle)).store.row v).memoryTs := by
  induction middle using List.reverseRecOn with
  | nil => rw [List.append_nil]
  | append_singleton middle batch ih =>
      rw [← List.append_assoc] at inStore chronological ⊢
      have here : batch ∈ front ++ middle ++ [batch] :=
        List.mem_append_right _ (List.mem_singleton_self _)
      have stepFormed := (runMemory_store formed (front ++ middle)).1
      have stepInStore := inStore.after (front ++ middle) here formed
      rw [MemoryBatch.Chronological, List.flatMap_append, List.pairwise_append] at chronological
      obtain ⟨before, -, across⟩ := chronological
      rw [runMemory_snoc]
      by_cases inBatch : v ∈ batch.edges.src ++ batch.edges.dst
      · have member := memoryStep_memoryTs stepFormed stepInStore inBatch
        have early := memoryTs_mem formed inStore.front.front touched
        refine across _ ?_ _ (List.mem_flatMap.mpr ⟨batch, List.mem_singleton_self _, member⟩)
        rw [List.flatMap_append]
        exact List.mem_append_left _ early
      · have has := ((runMemory_store formed (front ++ middle)).2 v).mpr
          (inStore.front.front.has_touched touched)
        rw [memoryStep_other stepFormed stepInStore has inBatch]
        exact ih inStore.front before

/-- Over a sequence of batches the latest rows are kept exactly when every batch has
ordered roles. -/
theorem latestKept_iff [Preorder α] (box : MailBox φ ψ α) (batches : List (MemoryBatch α))
    (formed : box.store.Formed) (inStore : box.InStore batches)
    (chronological : MemoryBatch.Chronological batches) :
    LatestKept box batches ↔ ∀ batch ∈ batches, batch.RoleOrdered := by
  have exact_ (front : List (MemoryBatch α)) (batch : MemoryBatch α) (back)
      (split : batches = front ++ batch :: back) :
      KeepsLatest batch (box.runMemory front) (box.runMemory (front ++ [batch])) ↔
        batch.RoleOrdered := by
    have member : batch ∈ batches := split ▸ List.mem_append_right _ List.mem_cons_self
    have part : batch.edges.times.Sublist (batches.flatMap fun batch => batch.edges.times) :=
      List.sublist_flatten_of_mem (List.mem_map.mpr ⟨batch, member, rfl⟩)
    have times : batch.edges.times.Pairwise (· ≤ ·) := List.Pairwise.sublist part chronological
    rw [runMemory_snoc]
    exact keepsLatest_iff (runMemory_store formed front).1 (inStore.after front member formed) times
  constructor
  · intro kept batch member
    obtain ⟨front, back, split⟩ := List.append_of_mem member
    exact (exact_ front batch back split).mp (kept.step front batch back split)
  · intro ordered
    refine ⟨fun front batch back split => ?_, fun front middle back split v touched => ?_⟩
    · refine (exact_ front batch back split).mpr (ordered batch ?_)
      exact split ▸ List.mem_append_right _ List.mem_cons_self
    · subst split
      refine memoryTs_monotone formed inStore.front ?_ touched
      rw [MemoryBatch.Chronological, List.flatMap_append] at chronological
      exact (List.pairwise_append.mp chronological).1

end Run

end MailBox

/-! ## A node that is a destination first and a source later -/

/-- Node 1 is the destination of the first edge and the source of the second one; the
updater computed a row for each of its events. -/
def relayBatch : MemoryBatch Nat := ⟨pairEdges 2 1 1 3, pairUpdated 2 1 1 3⟩

/-- Node 1 is a source first and a destination later. -/
def handoffBatch : MemoryBatch Nat := ⟨pairEdges 1 3 2 1, pairUpdated 1 3 2 1⟩

/-- A run of one batch whose nodes are in the buffer. -/
theorem inStore_single {batch : MemoryBatch Nat}
    (known : ∀ v ∈ batch.edges.src ++ batch.edges.dst, v ∈ [1, 2, 3, 4]) :
    (zeroBuffer 1).InStore [batch] := by
  intro other member v inBatch
  rw [List.mem_singleton.mp member] at inBatch
  exact known v inBatch

theorem relayBatch_not_kept :
    (zeroBuffer 1).store.Formed ∧ (zeroBuffer 1).InStore [relayBatch] ∧
      MemoryBatch.Chronological [relayBatch] ∧
      ((zeroBuffer 1).runMemory [relayBatch]).store.row 1 = ⟨[20], 5, [[0, 0]], [0]⟩ ∧
      ¬MailBox.LatestKept (zeroBuffer 1) [relayBatch] := by
  have inStore : (zeroBuffer 1).InStore [relayBatch] := inStore_single (by decide)
  refine ⟨zeroBuffer_formed 1, inStore, by decide, by decide, fun kept => ?_⟩
  have ordered := (kept.step [] relayBatch [] rfl).roleOrdered (zeroBuffer_formed 1)
    (inStore relayBatch (List.mem_singleton_self _))
  exact absurd (ordered 1 1 0 (by decide) (by decide) Nat.zero_lt_one).2 (by decide)

theorem handoffBatch_kept : MailBox.LatestKept (zeroBuffer 1) [handoffBatch] := by
  refine (MailBox.latestKept_iff _ _ (zeroBuffer_formed 1) (inStore_single (by decide))
    (by decide)).mpr fun batch member v s d source destination before => ?_
  rw [List.mem_singleton.mp member] at source destination
  have inSource : s < 2 := source.lt
  obtain ⟨rfl, rfl⟩ : d = 0 ∧ s = 1 := by omega
  have own : 2 = v := Option.some.inj source.1
  have other : 3 = v := Option.some.inj destination.1
  omega

end Dolphin.Buffer
