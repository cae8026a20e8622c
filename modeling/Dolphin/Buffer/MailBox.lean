import Dolphin.Buffer.NodeRows
import Dolphin.Tensor.LastWrite

/-!
# The mailbox

After every batch the memory and the mails of its nodes are updated. A node may have
several events in a batch; the updates keep one for each node, the one that stands last
in their list of nodes. The rows are in tables of the training process, in tables of the
prefetch process, or in the buffer.
-/

namespace Dolphin.Buffer

open Dolphin.Graph Dolphin.Memory Dolphin.Semantics Dolphin.Tensor

/-! ## The rows -/

/-- Where the rows are: in tables of this process, in those of the prefetch process, or
in the buffer. -/
inductive RowStore (φ ψ α : Type) where
  | tables (rows : Nat → NodeMem α)
  | shared (rows : Nat → NodeMem α)
  | buffer (gpu : Gpu φ ψ α)

namespace RowStore

variable {φ ψ α : Type}

/-- An update of some rows. -/
def update : RowStore φ ψ α → Update α → RowStore φ ψ α
  | .tables rows, call => .tables (editAll rows call.edits)
  | .shared rows, call => .shared (editAll rows call.edits)
  | .buffer gpu, call => .buffer (gpu.update call)

/-- The row of a node. -/
def row [Inhabited α] : RowStore φ ψ α → Nat → NodeMem α
  | .tables rows, v => rows v
  | .shared rows, v => rows v
  | .buffer gpu, v => gpu.memory.getD (rowIndex gpu.node.map v) default

/-- A node has a row. -/
def Has : RowStore φ ψ α → Nat → Prop
  | .tables _, _ => True
  | .shared _, _ => True
  | .buffer gpu, v => v ∈ gpu.node.map

/-- The map of the buffer is increasing and every id of it has a row. -/
def Formed : RowStore φ ψ α → Prop
  | .tables _ => True
  | .shared _ => True
  | .buffer gpu => gpu.node.map.Pairwise (· < ·) ∧ gpu.memory.length = gpu.node.map.length

instance (store : RowStore φ ψ α) (v : Nat) : Decidable (store.Has v) :=
  match store with
  | .tables _ => .isTrue trivial
  | .shared _ => .isTrue trivial
  | .buffer gpu => inferInstanceAs (Decidable (v ∈ gpu.node.map))

theorem has_of_tables {store : RowStore φ ψ α} {rows : Nat → NodeMem α}
    (tables : store = .tables rows) (v : Nat) : store.Has v := by
  rw [tables]
  trivial

@[simp] theorem update_has (store : RowStore φ ψ α) (call : Update α) (v : Nat) :
    (store.update call).Has v ↔ store.Has v := by
  cases store <;> rfl

theorem Formed.update {store : RowStore φ ψ α} (formed : store.Formed) (call : Update α) :
    (store.update call).Formed := by
  cases store with
  | tables rows => trivial
  | shared rows => trivial
  | buffer gpu => exact ⟨formed.1, (editColumn_length _ _ _).trans formed.2⟩

variable [Inhabited α]

/-- The rows of a buffer are those of its ids. -/
theorem Formed.memory {gpu : Gpu φ ψ α} (formed : (buffer gpu).Formed) :
    gpu.memory = gpu.node.map.map (buffer gpu).row := by
  obtain ⟨increasing, sized⟩ := formed
  apply List.ext_getElem?
  intro i
  rw [List.getElem?_map]
  cases node : gpu.node.map[i]? with
  | none =>
      rw [List.getElem?_eq_none_iff] at node
      rw [List.getElem?_eq_none (sized.trans_le node), Option.map_none]
  | some v =>
      obtain ⟨inMap, value⟩ := List.getElem?_eq_some_iff.mp node
      obtain ⟨found, located⟩ := List.getElem?_eq_some_iff.mp
        (rowIndex_spec increasing (List.mem_of_getElem? node))
      have distinct : gpu.node.map.Nodup := increasing.imp Nat.ne_of_lt
      have same : rowIndex gpu.node.map v = i :=
        distinct.getElem_inj_iff.mp (located.trans value.symm)
      have stored := List.getElem?_eq_getElem (sized.symm ▸ inMap)
      rw [Option.map_some, row, same, List.getD_eq_getElem?_getD, stored, Option.getD_some]

/-- The update of a store is the update of its rows. -/
theorem Formed.row_update {store : RowStore φ ψ α} (formed : store.Formed) {call : Update α}
    (inStore : ∀ v ∈ call.nid, store.Has v) {v : Nat} (has : store.Has v) :
    (store.update call).row v = editAll store.row call.edits v := by
  cases store with
  | tables rows => rfl
  | shared rows => rfl
  | buffer gpu =>
      have after := Gpu.update_memory formed.1 formed.memory inStore
      obtain ⟨inMap, located⟩ := List.getElem?_eq_some_iff.mp (rowIndex_spec formed.1 has)
      change (gpu.update call).memory.getD (rowIndex gpu.node.map v) default = _
      rw [after, List.getD_eq_getElem?_getD, List.getElem?_map,
        List.getElem?_eq_getElem inMap, located]
      rfl

end RowStore

/-! ## What a call does to the row of a node -/

section Calls

variable {α : Type} {nid : List Nat} {k v : Nat}

/-- A mail written to a slot. -/
def putMail (slot : Nat) (mail : List α) (time : α) (row : NodeMem α) : NodeMem α :=
  { row with
    mailbox := row.mailbox.set slot mail
    mailboxTs := row.mailboxTs.set slot time }

theorem memory_edits (distinct : nid.Nodup) (node : nid[k]? = some v) {memory : List (List α)}
    {ts : List α} {value : List α} {time : α} (row : memory[k]? = some value)
    (timed : ts[k]? = some time) (table : Nat → NodeMem α) :
    editAll table (Update.memory nid memory ts).edits v =
      { table v with memory := value, memoryTs := time } := by
  let change (value : List α × α) (row : NodeMem α) : NodeMem α :=
    { row with memory := value.1, memoryTs := value.2 }
  have pair : (memory.zip ts)[k]? = some (value, time) :=
    List.getElem?_zip_eq_some.mpr ⟨row, timed⟩
  have edit : ((memory.zip ts).map change)[k]? = some (change (value, time)) := by
    rw [List.getElem?_map, pair, Option.map_some]
  exact editAll_zip distinct table node edit

theorem mailbox_edits (distinct : nid.Nodup) (node : nid[k]? = some v) {mail : List (List α)}
    {mailTs : List α} {nPtr : Option (List Nat)} {value : List α} {time : α} {slot : Nat}
    (row : mail[k]? = some value) (timed : mailTs[k]? = some time)
    (pointer : (nPtr.getD (nid.map fun _ => 0))[k]? = some slot) (table : Nat → NodeMem α) :
    editAll table (Update.mailbox nid mail mailTs nPtr).edits v =
      putMail slot value time (table v) := by
  let change (value : List α × α × Nat) (row : NodeMem α) : NodeMem α :=
    putMail value.2.2 value.1 value.2.1 row
  have pair : (mailTs.zip (nPtr.getD (nid.map fun _ => 0)))[k]? = some (time, slot) :=
    List.getElem?_zip_eq_some.mpr ⟨timed, pointer⟩
  have triple : (mail.zip (mailTs.zip (nPtr.getD (nid.map fun _ => 0))))[k]? =
      some (value, time, slot) := List.getElem?_zip_eq_some.mpr ⟨row, pair⟩
  have edit : ((mail.zip (mailTs.zip (nPtr.getD (nid.map fun _ => 0)))).map change)[k]? =
      some (change (value, time, slot)) := by
    rw [List.getElem?_map, triple, Option.map_some]
  exact editAll_zip distinct table node edit

end Calls

/-! ## The updates -/

/-- The rows of the first matrix in front of those of the second one, with the edge
features behind them if there are any. -/
def mailRows {α : Type} (param : MemoryParam) (own other edgeFeats : List (List α)) :
    List (List α) :=
  if 0 < param.dimEdgeFeat then
    List.zipWith (· ++ ·) (List.zipWith (· ++ ·) own other) edgeFeats
  else List.zipWith (· ++ ·) own other

/-- `MailBox`, with `deliver_to` set to `self` and `mail_combine` to `last`. -/
structure MailBox (φ ψ α : Type) where
  param : MemoryParam
  store : RowStore φ ψ α
  nextMailPos : Nat → Nat

namespace MailBox

variable {φ ψ α : Type}

/-- `update_memory`. -/
def updateMemory [Inhabited α] (box : MailBox φ ψ α) (nid : Option (List Nat))
    (memory : List (List α)) (rootNodes : List Nat) (ts : List α) (negSamples : Nat) :
    MailBox φ ψ α :=
  match nid with
  | none => box
  | some nid =>
      let numTrueSrcDst := rootNodes.length / (negSamples + 2) * 2
      let nid := nid.take numTrueSrcDst
      let memory := memory.take numTrueSrcDst
      let ts := ts.take numTrueSrcDst
      let perm := lastOccurrences nid
      let call := .memory (unique nid) (gather memory perm) (gather ts perm)
      { box with store := box.store.update call }

/-- The next position of some nodes, when their mailboxes have several slots. -/
def advance (box : MailBox φ ψ α) (nid : List Nat) : MailBox φ ψ α :=
  let next := nid.map fun v => (box.nextMailPos v + 1) % box.param.mailboxSize
  if 1 < box.param.mailboxSize then
    { box with nextMailPos := writeAll box.nextMailPos nid next }
  else box

/-- The mails of distinct nodes are written. The buffer and the prefetch process write
them to the first slot. -/
def deliver (box : MailBox φ ψ α) (nid : List Nat) (mail : List (List α)) (mailTs : List α) :
    MailBox φ ψ α :=
  let write (nPtr : Option (List Nat)) : MailBox φ ψ α :=
    { box with store := box.store.update (.mailbox nid mail mailTs nPtr) }
  match box.store with
  | .buffer _ => write none
  | .shared _ => (write none).advance nid
  | .tables _ => (write (some (nid.map box.nextMailPos))).advance nid

/-- `update_mailbox`. -/
def updateMailbox [Inhabited α] (box : MailBox φ ψ α) (memory : List (List α))
    (rootNodes : List Nat) (ts : List α) (edgeFeats : List (List α)) (negSamples : Nat) :
    MailBox φ ψ α :=
  let numTrueEdges := rootNodes.length / (negSamples + 2)
  let src := rootNodes.take numTrueEdges
  let dst := (rootNodes.take (numTrueEdges * 2)).drop numTrueEdges
  let memSrc := memory.take numTrueEdges
  let memDst := (memory.take (numTrueEdges * 2)).drop numTrueEdges
  let srcMail := mailRows box.param memSrc memDst edgeFeats
  let dstMail := mailRows box.param memDst memSrc edgeFeats
  let mail := interleave srcMail dstMail
  let nid := interleave src dst
  let mailTs := ts.take (numTrueEdges * 2)
  let perm := lastOccurrences nid
  box.deliver (gather nid perm) (gather mail perm) (gather mailTs perm)

end MailBox

/-! ## The batches -/

/-- The edges of a batch with the negatives drawn for them. -/
structure EdgeBatch (α : Type) where
  src : List Nat
  dst : List Nat
  neg : List Nat
  times : List α
  negSamples : Nat
  dstSized : dst.length = src.length
  negSized : neg.length = negSamples * src.length
  timesSized : times.length = src.length

namespace EdgeBatch

variable {α : Type}

/-- `root_nodes`: the sources, the destinations and the negatives. -/
def rootNodes (batch : EdgeBatch α) : List Nat := batch.src ++ batch.dst ++ batch.neg

/-- `ts`: the edge times for the sources, for the destinations and for every copy of the
negatives. -/
def ts (batch : EdgeBatch α) : List α :=
  batch.times ++ batch.times ++ (List.replicate batch.negSamples batch.times).flatten

/-- A node is the source or the destination of an event. -/
def HasEvent (batch : EdgeBatch α) (v e : Nat) : Prop :=
  batch.src[e]? = some v ∨ batch.dst[e]? = some v

/-- The last event of a node. -/
def LastEvent (batch : EdgeBatch α) (v e : Nat) : Prop :=
  batch.HasEvent v e ∧ ∀ f, batch.HasEvent v f → f ≤ e

variable {batch : EdgeBatch α} {v e : Nat}

theorem HasEvent.lt (event : batch.HasEvent v e) : e < batch.src.length := by
  rcases event with source | destination
  · exact (List.getElem?_eq_some_iff.mp source).1
  · rw [← batch.dstSized]
    exact (List.getElem?_eq_some_iff.mp destination).1

theorem HasEvent.mem (event : batch.HasEvent v e) : v ∈ batch.src ++ batch.dst := by
  rcases event with source | destination
  · exact List.mem_append_left _ (List.mem_of_getElem? source)
  · exact List.mem_append_right _ (List.mem_of_getElem? destination)

instance (batch : EdgeBatch α) (v e : Nat) : Decidable (batch.HasEvent v e) :=
  inferInstanceAs (Decidable (batch.src[e]? = some v ∨ batch.dst[e]? = some v))

instance (batch : EdgeBatch α) (v e : Nat) : Decidable (batch.LastEvent v e) :=
  decidable_of_iff
    (batch.HasEvent v e ∧ ∀ f < batch.src.length, batch.HasEvent v f → f ≤ e) <|
    and_congr_right fun _ => forall_congr' fun _ =>
      ⟨fun bound event => bound event.lt event, fun bound _ => bound⟩

theorem exists_event (member : v ∈ batch.src ++ batch.dst) : ∃ e, batch.HasEvent v e := by
  rcases List.mem_append.mp member with source | destination
  · obtain ⟨e, found⟩ := List.getElem?_of_mem source
    exact ⟨e, .inl found⟩
  · obtain ⟨e, found⟩ := List.getElem?_of_mem destination
    exact ⟨e, .inr found⟩

theorem notMem_of_noEvent (noEvent : ∀ e, ¬batch.HasEvent v e) : v ∉ batch.src ++ batch.dst := by
  intro member
  obtain ⟨e, event⟩ := exists_event member
  exact noEvent e event

/-- The nodes of the mails: the source of every event in front of its destination. -/
def mailNodes (batch : EdgeBatch α) : List Nat := interleave batch.src batch.dst

/-- Where the last mail of a node stands among those of all sources and destinations. -/
def mailPosition (batch : EdgeBatch α) (v e : Nat) : Nat :=
  if batch.dst[e]? = some v then 2 * e + 1 else 2 * e

/-- The positions of a node are those of its roles in its events. -/
theorem mailNodes_eq_some {j : Nat} :
    batch.mailNodes[j]? = some v ↔
      ∃ e, batch.src[e]? = some v ∧ j = 2 * e ∨ batch.dst[e]? = some v ∧ j = 2 * e + 1 :=
  interleave_eq_some batch.dstSized

/-- The last position of a node is the one of its last event, and of its destination
there if it has both roles. -/
theorem LastEvent.mailPosition (last : batch.LastEvent v e) :
    LastAt batch.mailNodes v (batch.mailPosition v e) := by
  obtain ⟨event, greatest⟩ := last
  rw [EdgeBatch.mailPosition]
  split
  case isTrue destination =>
    refine ⟨mailNodes_eq_some.mpr ⟨e, .inr ⟨destination, rfl⟩⟩, fun j found => ?_⟩
    obtain ⟨f, ⟨role, rfl⟩ | ⟨role, rfl⟩⟩ := mailNodes_eq_some.mp found
    · have bound := greatest f (.inl role)
      omega
    · have bound := greatest f (.inr role)
      omega
  case isFalse other =>
    have source := event.resolve_right other
    refine ⟨mailNodes_eq_some.mpr ⟨e, .inl ⟨source, rfl⟩⟩, fun j found => ?_⟩
    obtain ⟨f, ⟨role, rfl⟩ | ⟨role, rfl⟩⟩ := mailNodes_eq_some.mp found
    · have bound := greatest f (.inl role)
      omega
    · have bound := greatest f (.inr role)
      have before : f ≠ e := fun same => other (same ▸ role)
      omega

theorem mem_mailNodes : v ∈ batch.mailNodes ↔ ∃ e, batch.HasEvent v e := by
  rw [List.mem_iff_getElem?]
  constructor
  · rintro ⟨j, found⟩
    obtain ⟨e, ⟨role, -⟩ | ⟨role, -⟩⟩ := mailNodes_eq_some.mp found
    · exact ⟨e, .inl role⟩
    · exact ⟨e, .inr role⟩
  · rintro ⟨e, role | role⟩
    · exact ⟨2 * e, mailNodes_eq_some.mpr ⟨e, .inl ⟨role, rfl⟩⟩⟩
    · exact ⟨2 * e + 1, mailNodes_eq_some.mpr ⟨e, .inr ⟨role, rfl⟩⟩⟩

theorem mailNodes_iff : v ∈ batch.mailNodes ↔ v ∈ batch.src ++ batch.dst :=
  mem_mailNodes.trans ⟨fun ⟨_, event⟩ => event.mem, exists_event⟩

/-- Every node of an event has a last event. -/
theorem exists_lastEvent (event : batch.HasEvent v e) : ∃ last, batch.LastEvent v last := by
  obtain ⟨p, value, greatest⟩ := LastAt.of_mem (mem_mailNodes.mpr ⟨e, event⟩)
  obtain ⟨last, inLast⟩ := mailNodes_eq_some.mp value
  refine ⟨last, inLast.imp And.left And.left, fun f role => ?_⟩
  rcases role with role | role
  · have bound := greatest _ (mailNodes_eq_some.mpr ⟨f, .inl ⟨role, rfl⟩⟩)
    omega
  · have bound := greatest _ (mailNodes_eq_some.mpr ⟨f, .inr ⟨role, rfl⟩⟩)
    omega

/-! ### The slices of the update methods -/

variable (batch)

theorem nodes_length : (batch.src ++ batch.dst).length = batch.src.length * 2 := by
  rw [List.length_append, batch.dstSized]
  omega

theorem times_length : (batch.times ++ batch.times).length = batch.src.length * 2 := by
  rw [List.length_append, batch.timesSized]
  omega

theorem rootNodes_div :
    batch.rootNodes.length / (batch.negSamples + 2) = batch.src.length := by
  have total : batch.rootNodes.length = (batch.negSamples + 2) * batch.src.length := by
    rw [rootNodes, List.length_append, List.length_append, batch.dstSized, batch.negSized,
      Nat.add_mul]
    omega
  rw [total, Nat.mul_div_cancel_left _ (Nat.succ_pos _)]

theorem rootNodes_src : batch.rootNodes.take batch.src.length = batch.src := by
  rw [rootNodes, List.append_assoc, List.take_left]

theorem rootNodes_dst :
    (batch.rootNodes.take (batch.src.length * 2)).drop batch.src.length = batch.dst := by
  rw [rootNodes, List.take_left' batch.nodes_length, List.drop_left]

theorem ts_take : batch.ts.take (batch.src.length * 2) = batch.times ++ batch.times := by
  rw [ts, List.take_left' batch.times_length]

end EdgeBatch

/-- What the memory updater leaves after a batch: its nodes, rows and times start with
those of the sources and of the destinations. -/
structure LastUpdated (α : Type) (batch : EdgeBatch α) where
  otherNodes : List Nat
  otherTs : List α
  memory : List (List α)
  sized : batch.src.length * 2 ≤ memory.length

namespace LastUpdated

variable {α : Type} {batch : EdgeBatch α}

/-- `last_updated_nid`. -/
def nid (updated : LastUpdated α batch) : List Nat :=
  batch.src ++ batch.dst ++ updated.otherNodes

/-- `last_updated_ts`. -/
def ts (updated : LastUpdated α batch) : List α :=
  batch.times ++ batch.times ++ updated.otherTs

end LastUpdated

namespace MailBox

variable {φ ψ α : Type} [Inhabited α]

/-! ## One update of the memory -/

/-- `update_memory` after a batch. -/
def memoryStep (box : MailBox φ ψ α) (batch : EdgeBatch α) (updated : LastUpdated α batch) :
    MailBox φ ψ α :=
  box.updateMemory (some updated.nid) updated.memory batch.rootNodes updated.ts batch.negSamples

/-- The call of a batch. -/
def memoryCall (batch : EdgeBatch α) (updated : LastUpdated α batch) : Update α :=
  .memory (unique (batch.src ++ batch.dst))
    (gather (updated.memory.take (batch.src.length * 2))
      (lastOccurrences (batch.src ++ batch.dst)))
    (gather (batch.times ++ batch.times) (lastOccurrences (batch.src ++ batch.dst)))

variable {box : MailBox φ ψ α} {batch : EdgeBatch α} {updated : LastUpdated α batch}

theorem memoryStep_eq :
    box.memoryStep batch updated =
      { box with store := box.store.update (memoryCall batch updated) } := by
  rw [memoryStep, updateMemory, batch.rootNodes_div, LastUpdated.nid, LastUpdated.ts]
  simp only [List.take_left' batch.nodes_length, List.take_left' batch.times_length]
  rfl

/-- The nodes of the call are those of the batch's events. -/
theorem memoryCall_nid {v : Nat} :
    v ∈ (memoryCall batch updated).nid ↔ v ∈ batch.src ++ batch.dst := mem_unique

/-- A node gets the row and the time that stand at its last position in the list of all
sources followed by all destinations. -/
theorem memoryStep_row (formed : box.store.Formed)
    (inStore : ∀ v ∈ batch.src ++ batch.dst, box.store.Has v) {v i : Nat}
    (last : LastAt (batch.src ++ batch.dst) v i) {memory : List α} {time : α}
    (row : updated.memory[i]? = some memory) (timed : (batch.times ++ batch.times)[i]? = some time) :
    (box.memoryStep batch updated).store.row v =
      { box.store.row v with memory := memory, memoryTs := time } := by
  have inTaken : i < batch.src.length * 2 := batch.nodes_length ▸ last.lt
  have taken : (updated.memory.take (batch.src.length * 2))[i]? = some memory := by
    rw [List.getElem?_take_of_lt inTaken, row]
  have key : (unique (batch.src ++ batch.dst))[(unique (batch.src ++ batch.dst)).idxOf v]? =
      some v := List.getElem?_idxOf (mem_unique.mpr last.mem)
  rw [memoryStep_eq, formed.row_update (fun v member => inStore v (memoryCall_nid.mp member))
    (inStore v last.mem)]
  exact memory_edits (unique_nodup _) key (gather_lastOccurrences last taken)
    (gather_lastOccurrences last timed) _

/-- Other nodes keep their rows. -/
theorem memoryStep_other (formed : box.store.Formed)
    (inStore : ∀ v ∈ batch.src ++ batch.dst, box.store.Has v) {v : Nat} (has : box.store.Has v)
    (other : v ∉ batch.src ++ batch.dst) :
    (box.memoryStep batch updated).store.row v = box.store.row v := by
  rw [memoryStep_eq, formed.row_update (fun v member => inStore v (memoryCall_nid.mp member)) has]
  refine editAll_other (fun member => other ?_) _
  exact memoryCall_nid.mp (Update.edits_nid _ member)

end MailBox

/-! ## Two edges -/

/-- Two edges at the times 5 and 8 with a negative for each of them. -/
def pairEdges (src dst src' dst' : Nat) : EdgeBatch Nat where
  src := [src, src']
  dst := [dst, dst']
  neg := [4, 4]
  times := [5, 8]
  negSamples := 1
  dstSized := rfl
  negSized := rfl
  timesSized := rfl

/-- A row for every root, which tells the roots apart. -/
def pairUpdated (src dst src' dst' : Nat) : LastUpdated Nat (pairEdges src dst src' dst') where
  otherNodes := [4, 4]
  otherTs := [5, 8]
  memory := [[10], [11], [20], [21], [30], [31]]
  sized := (by decide : 4 ≤ 6)

/-- A buffer of four nodes with empty mailboxes. -/
def zeroBuffer (mailboxSize : Nat) : MailBox Nat Nat Nat where
  param := ⟨1, mailboxSize, 0⟩
  store := .buffer
    { node := ⟨[1, 2, 3, 4], []⟩
      edge := ⟨[], []⟩
      memory := List.replicate 4
        ⟨[0], 0, List.replicate mailboxSize [0, 0], List.replicate mailboxSize 0⟩ }
  nextMailPos := fun _ => 0

theorem zeroBuffer_formed (mailboxSize : Nat) : (zeroBuffer mailboxSize).store.Formed :=
  ⟨(by decide : [1, 2, 3, 4].Pairwise (· < ·)), List.length_replicate⟩

theorem zeroBuffer_has (mailboxSize : Nat) {v : Nat} :
    (zeroBuffer mailboxSize).store.Has v ↔ v ∈ [1, 2, 3, 4] := Iff.rfl

end Dolphin.Buffer
