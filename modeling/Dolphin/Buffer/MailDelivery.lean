import Dolphin.Buffer.LatestMemory

/-!
# The delivery of the mails

Every node of a batch should get the mail and the time of its last event. The nodes and
the mails are interleaved, the source of an event in front of its destination, but the
times stay the edge times followed by the edge times: the time that is delivered is the one
at the position of the node, taken modulo the number of edges.
-/

namespace Dolphin.Buffer

open Dolphin.Memory Dolphin.Semantics Dolphin.Tensor

/-- A batch with the features of its edges. -/
structure MailBatch (α : Type) extends MemoryBatch α where
  edgeFeats : List (List α)
  featsSized : edgeFeats.length = edges.src.length

namespace MailBatch

variable {α : Type}

/-- The features in a mail. -/
def feat (param : MemoryParam) (batch : MailBatch α) (e : Nat) : List α :=
  if 0 < param.dimEdgeFeat then batch.edgeFeats.getD e [] else []

/-- The mail of an event for one of its nodes: its own row, that of the other node and the
features. -/
def EventMail (param : MemoryParam) (batch : MailBatch α) (v e : Nat) (mail : List α) : Prop :=
  ∃ source destination, batch.updated.memory[e]? = some source ∧
    batch.updated.memory[batch.edges.src.length + e]? = some destination ∧
      (batch.edges.src[e]? = some v ∧ mail = source ++ destination ++ batch.feat param e ∨
        batch.edges.dst[e]? = some v ∧ mail = destination ++ source ++ batch.feat param e)

/-- The time that stands at the position of a node's last mail is that of its event. -/
def TimesAligned (batch : MailBatch α) : Prop :=
  ∀ v e, batch.edges.LastEvent v e →
    batch.edges.times[batch.edges.mailPosition v e % batch.edges.src.length]? =
      batch.edges.times[e]?

/-! ## The mails -/

/-- The rows of the sources. -/
def memSrc (batch : MailBatch α) : List (List α) :=
  batch.updated.memory.take batch.edges.src.length

/-- The rows of the destinations. -/
def memDst (batch : MailBatch α) : List (List α) :=
  (batch.updated.memory.take (batch.edges.src.length * 2)).drop batch.edges.src.length

/-- The mails of a batch. -/
def mails (param : MemoryParam) (batch : MailBatch α) : List (List α) :=
  interleave (mailRows param batch.memSrc batch.memDst batch.edgeFeats)
    (mailRows param batch.memDst batch.memSrc batch.edgeFeats)

/-- The times that are delivered with them. -/
def mailTs (batch : MailBatch α) : List α := batch.edges.times ++ batch.edges.times

/-- What a batch delivers to a node: the mail and the time at its last position. -/
def delivery (param : MemoryParam) (batch : MailBatch α) (v : Nat) : Option (List α × α) :=
  (lastPosition batch.edges.mailNodes v).bind fun position =>
    ((batch.mails param).zip batch.mailTs)[position]?

variable {param : MemoryParam} {batch : MailBatch α} {v e : Nat}

theorem memSrc_getElem? (bound : e < batch.edges.src.length) :
    batch.memSrc[e]? = batch.updated.memory[e]? := List.getElem?_take_of_lt bound

theorem memDst_getElem? (bound : e < batch.edges.src.length) :
    batch.memDst[e]? = batch.updated.memory[batch.edges.src.length + e]? := by
  rw [memDst, List.getElem?_drop, List.getElem?_take_of_lt (by omega)]

theorem memSrc_length : batch.memSrc.length = batch.edges.src.length := by
  have sized := batch.updated.sized
  rw [memSrc, List.length_take]
  omega

theorem memDst_length : batch.memDst.length = batch.edges.src.length := by
  have sized := batch.updated.sized
  rw [memDst, List.length_drop, List.length_take]
  omega

theorem mailRows_getElem? {own other : List (List α)} {first second : List α}
    (ownRow : own[e]? = some first) (otherRow : other[e]? = some second)
    (bound : e < batch.edges.src.length) :
    (mailRows param own other batch.edgeFeats)[e]? =
      some (first ++ second ++ batch.feat param e) := by
  have feats := List.getElem?_eq_getElem (batch.featsSized.symm ▸ bound)
  rw [mailRows, feat]
  split
  · simp [List.getElem?_zipWith, ownRow, otherRow, feats]
  · simp [List.getElem?_zipWith, ownRow, otherRow]

theorem mailRows_length {own other : List (List α)} (ownSized : own.length = batch.edges.src.length)
    (otherSized : other.length = batch.edges.src.length) :
    (mailRows param own other batch.edgeFeats).length = batch.edges.src.length := by
  rw [mailRows]
  split
  · simp [ownSized, otherSized, batch.featsSized]
  · simp [ownSized, otherSized]

/-- At the last position of a node stands its mail of its last event. -/
theorem mails_last (param : MemoryParam) (last : batch.edges.LastEvent v e) :
    ∃ mail, (batch.mails param)[batch.edges.mailPosition v e]? = some mail ∧
      batch.EventMail param v e mail := by
  have bound := last.1.lt
  have sized := batch.updated.sized
  have srcRow := List.getElem?_eq_getElem (l := batch.updated.memory) (i := e) (by omega)
  have dstRow := List.getElem?_eq_getElem (l := batch.updated.memory)
    (i := batch.edges.src.length + e) (by omega)
  have ownSrc := (memSrc_getElem? bound).trans srcRow
  have ownDst := (memDst_getElem? bound).trans dstRow
  have aligned : (mailRows param batch.memDst batch.memSrc batch.edgeFeats).length =
      (mailRows param batch.memSrc batch.memDst batch.edgeFeats).length := by
    rw [mailRows_length memSrc_length memDst_length, mailRows_length memDst_length memSrc_length]
  rw [mails, EdgeBatch.mailPosition]
  split
  case isTrue destination =>
    rw [interleave_odd aligned, mailRows_getElem? ownDst ownSrc bound]
    exact ⟨_, rfl, _, _, srcRow, dstRow, .inr ⟨destination, rfl⟩⟩
  case isFalse other =>
    rw [interleave_even aligned, mailRows_getElem? ownSrc ownDst bound]
    exact ⟨_, rfl, _, _, srcRow, dstRow, .inl ⟨last.1.resolve_right other, rfl⟩⟩

/-- The time there is the one at the position modulo the number of edges. -/
theorem mailTs_last (last : batch.edges.LastEvent v e) :
    ∃ time, batch.mailTs[batch.edges.mailPosition v e]? = some time ∧
      batch.edges.times[batch.edges.mailPosition v e % batch.edges.src.length]? = some time := by
  have bound := last.1.lt
  have sized := batch.edges.timesSized
  have inside : batch.edges.mailPosition v e < 2 * batch.edges.src.length := by
    rw [EdgeBatch.mailPosition]
    split <;> omega
  have reduced :
      batch.edges.mailPosition v e % batch.edges.src.length < batch.edges.times.length := by
    rw [sized]
    exact Nat.mod_lt _ (by omega)
  refine ⟨_, ?_, List.getElem?_eq_getElem reduced⟩
  rw [mailTs]
  by_cases first : batch.edges.mailPosition v e < batch.edges.src.length
  · rw [List.getElem?_append_left (sized.symm ▸ first)]
    simp only [Nat.mod_eq_of_lt first]
    exact List.getElem?_eq_getElem _
  · have second : batch.edges.mailPosition v e % batch.edges.src.length =
        batch.edges.mailPosition v e - batch.edges.times.length := by
      rw [sized, Nat.mod_eq_sub_mod (Nat.le_of_not_lt first), Nat.mod_eq_of_lt (by omega)]
    rw [List.getElem?_append_right (by omega)]
    simp only [second]
    exact List.getElem?_eq_getElem _

/-- A node gets the mail of its last event, with the time at its position. -/
theorem delivery_last (param : MemoryParam) (last : batch.edges.LastEvent v e) :
    ∃ mail time, batch.delivery param v = some (mail, time) ∧ batch.EventMail param v e mail ∧
      batch.edges.times[batch.edges.mailPosition v e % batch.edges.src.length]? = some time := by
  obtain ⟨mail, atPosition, eventMail⟩ := mails_last param last
  obtain ⟨time, timed, reduced⟩ := mailTs_last last
  refine ⟨mail, time, ?_, eventMail, reduced⟩
  rw [delivery, lastPosition_eq last.mailPosition]
  exact List.getElem?_zip_eq_some.mpr ⟨atPosition, timed⟩

/-- Nodes without events get nothing. -/
theorem delivery_other (param : MemoryParam) (other : v ∉ batch.edges.src ++ batch.edges.dst) :
    batch.delivery param v = none := by
  rw [delivery, lastPosition_missing (mt EdgeBatch.mailNodes_iff.mp other)]
  rfl

/-- Exactly the nodes of the events get something. -/
theorem delivery_cases (param : MemoryParam) (batch : MailBatch α) (v : Nat) :
    v ∈ batch.edges.src ++ batch.edges.dst ∧ (∃ mail time,
        batch.delivery param v = some (mail, time)) ∨
      v ∉ batch.edges.src ++ batch.edges.dst ∧ batch.delivery param v = none := by
  by_cases member : v ∈ batch.edges.src ++ batch.edges.dst
  · obtain ⟨e, event⟩ := EdgeBatch.exists_event member
    obtain ⟨last, isLast⟩ := EdgeBatch.exists_lastEvent event
    obtain ⟨mail, time, delivered, -⟩ := delivery_last param isLast
    exact .inl ⟨member, mail, time, delivered⟩
  · exact .inr ⟨member, delivery_other param member⟩

/-- What is delivered stands at the last position. -/
theorem delivery_position {mail : List α} {time : α}
    (delivered : batch.delivery param v = some (mail, time)) :
    ∃ position, LastAt batch.edges.mailNodes v position ∧
      (batch.mails param)[position]? = some mail ∧ batch.mailTs[position]? = some time := by
  by_cases member : v ∈ batch.edges.mailNodes
  · obtain ⟨position, last⟩ := LastAt.of_mem member
    rw [delivery, lastPosition_eq last] at delivered
    obtain ⟨atPosition, timed⟩ := List.getElem?_zip_eq_some.mp delivered
    exact ⟨position, last, atPosition, timed⟩
  · rw [delivery, lastPosition_missing member] at delivered
    cases delivered

end MailBatch

/-- The time of a mail in a slot is read back. -/
theorem putMail_time {α : Type} {slot : Nat} {mail mail' : List α} {time time' : α}
    {row : NodeMem α} (hasSlot : slot < row.mailboxTs.length)
    (same : putMail slot mail time row = putMail slot mail' time' row) : time = time' := by
  have entries := congrArg (fun row => row.mailboxTs[slot]?) same
  simpa [putMail, hasSlot] using entries

namespace MailBox

variable {φ ψ α : Type}

/-- The slot a node's mail is written to. -/
def slot (box : MailBox φ ψ α) (v : Nat) : Nat :=
  match box.store with
  | .tables _ => box.nextMailPos v
  | _ => 0

/-! ## The update -/

section Step

variable [Inhabited α]

/-- `update_mailbox` after a batch. -/
def mailboxStep (box : MailBox φ ψ α) (batch : MailBatch α) : MailBox φ ψ α :=
  box.updateMailbox batch.updated.memory batch.edges.rootNodes batch.edges.ts batch.edgeFeats
    batch.edges.negSamples

/-- Every node has as many slots as are configured, and a next one. -/
structure WellFormed (box : MailBox φ ψ α) : Prop where
  store : box.store.Formed
  mailbox : ∀ v, box.store.Has v → (box.store.row v).mailbox.length = box.param.mailboxSize
  mailboxTs : ∀ v, box.store.Has v → (box.store.row v).mailboxTs.length = box.param.mailboxSize
  position : ∀ v, box.nextMailPos v < box.param.mailboxSize

/-- An update delivers to every node of the batch the mail and the time of its last event,
and leaves all other rows as they were. -/
structure Delivered (batch : MailBatch α) (before after : MailBox φ ψ α) : Prop where
  own : ∀ v e, batch.edges.LastEvent v e → ∃ mail time,
    batch.EventMail before.param v e mail ∧ batch.edges.times[e]? = some time ∧
      after.store.row v = putMail (before.slot v) mail time (before.store.row v)
  others : ∀ v, before.store.Has v → (∀ e, ¬batch.edges.HasEvent v e) →
    after.store.row v = before.store.row v

theorem mailboxStep_eq (box : MailBox φ ψ α) (batch : MailBatch α) :
    box.mailboxStep batch =
      box.deliver (unique batch.edges.mailNodes)
        (gather (batch.mails box.param) (lastOccurrences batch.edges.mailNodes))
        (gather batch.mailTs (lastOccurrences batch.edges.mailNodes)) := by
  have nodes := gather_lastOccurrences_self batch.edges.mailNodes
  rw [EdgeBatch.mailNodes] at nodes
  rw [mailboxStep, updateMailbox, batch.edges.rootNodes_div, batch.edges.rootNodes_src,
    batch.edges.rootNodes_dst, batch.edges.ts_take]
  simp only [nodes]
  rfl

omit [Inhabited α] in
@[simp] theorem advance_store (box : MailBox φ ψ α) (nid : List Nat) :
    (box.advance nid).store = box.store := by
  rw [advance]
  split <;> rfl

omit [Inhabited α] in
/-- A delivery is one call, which points to the slot of every node. -/
theorem deliver_store (box : MailBox φ ψ α) (nid : List Nat) (mail : List (List α))
    (mailTs : List α) : ∃ nPtr,
      (box.deliver nid mail mailTs).store = box.store.update (.mailbox nid mail mailTs nPtr) ∧
        nPtr.getD (nid.map fun _ => 0) = nid.map box.slot := by
  obtain ⟨param, store, nextMailPos⟩ := box
  cases store with
  | tables rows => exact ⟨some (nid.map nextMailPos), advance_store _ _, rfl⟩
  | shared rows => exact ⟨none, advance_store _ _, rfl⟩
  | buffer gpu => exact ⟨none, rfl, rfl⟩

/-- The call of a batch. -/
def mailCall (box : MailBox φ ψ α) (batch : MailBatch α) (nPtr : Option (List Nat)) : Update α :=
  .mailbox (unique batch.edges.mailNodes)
    (gather (batch.mails box.param) (lastOccurrences batch.edges.mailNodes))
    (gather batch.mailTs (lastOccurrences batch.edges.mailNodes)) nPtr

theorem mailboxStep_store (box : MailBox φ ψ α) (batch : MailBatch α) : ∃ nPtr,
    (box.mailboxStep batch).store = box.store.update (box.mailCall batch nPtr) ∧
      nPtr.getD ((unique batch.edges.mailNodes).map fun _ => 0) =
        (unique batch.edges.mailNodes).map box.slot := by
  rw [mailboxStep_eq]
  exact box.deliver_store _ _ _

variable {box : MailBox φ ψ α} {batch : MailBatch α} {v : Nat}

/-- The nodes of the call are those of the batch's events. -/
theorem mem_mailCall {nPtr : Option (List Nat)} :
    v ∈ (box.mailCall batch nPtr).nid ↔ v ∈ batch.edges.src ++ batch.edges.dst := by
  rw [mailCall, Update.nid, mem_unique, EdgeBatch.mailNodes_iff]

/-- A node gets what the batch delivers to it, in its slot. -/
theorem mailboxStep_delivery (formed : box.store.Formed)
    (inStore : ∀ w ∈ batch.edges.src ++ batch.edges.dst, box.store.Has w) {mail : List α}
    {time : α} (delivered : batch.delivery box.param v = some (mail, time)) :
    (box.mailboxStep batch).store.row v = putMail (box.slot v) mail time (box.store.row v) := by
  obtain ⟨position, last, atPosition, timed⟩ := MailBatch.delivery_position delivered
  have key := List.getElem?_idxOf (mem_unique.mpr last.mem)
  obtain ⟨nPtr, stored, pointers⟩ := box.mailboxStep_store batch
  have pointer : (nPtr.getD ((unique batch.edges.mailNodes).map fun _ => 0))[
      (unique batch.edges.mailNodes).idxOf v]? = some (box.slot v) := by
    rw [pointers, List.getElem?_map, key, Option.map_some]
  rw [stored, formed.row_update (fun w inCall => inStore w (mem_mailCall.mp inCall))
    (inStore v (EdgeBatch.mailNodes_iff.mp last.mem))]
  exact mailbox_edits (unique_nodup _) key (gather_lastOccurrences last atPosition)
    (gather_lastOccurrences last timed) pointer _

/-- Other nodes keep their rows. -/
theorem mailboxStep_other (formed : box.store.Formed)
    (inStore : ∀ w ∈ batch.edges.src ++ batch.edges.dst, box.store.Has w)
    (has : box.store.Has v) (other : v ∉ batch.edges.src ++ batch.edges.dst) :
    (box.mailboxStep batch).store.row v = box.store.row v := by
  obtain ⟨nPtr, stored, -⟩ := box.mailboxStep_store batch
  rw [stored, formed.row_update (fun w inCall => inStore w (mem_mailCall.mp inCall)) has]
  exact editAll_other (fun member => other (mem_mailCall.mp (Update.edits_nid _ member))) _

theorem WellFormed.slot_lt (formed : box.WellFormed) (v : Nat) :
    box.slot v < box.param.mailboxSize := by
  rw [slot]
  split
  · exact formed.position v
  · exact (Nat.zero_le _).trans_lt (formed.position v)

/-- What is delivered whole was of a batch with aligned times. -/
theorem Delivered.timesAligned (formed : box.WellFormed)
    (inStore : ∀ w ∈ batch.edges.src ++ batch.edges.dst, box.store.Has w)
    (delivered : Delivered batch box (box.mailboxStep batch)) : batch.TimesAligned := by
  intro v e last
  obtain ⟨mail, time, -, timed, row⟩ := delivered.own v e last
  obtain ⟨mail', time', delivery, -, atPosition⟩ := MailBatch.delivery_last box.param last
  have row' := mailboxStep_delivery formed.store inStore delivery
  have hasSlot : box.slot v < (box.store.row v).mailboxTs.length := by
    rw [formed.mailboxTs v (inStore v last.1.mem)]
    exact formed.slot_lt v
  rw [atPosition, timed, putMail_time hasSlot (row'.symm.trans row)]

/-- Every node of a batch gets one whole event exactly when the times at the positions are
those of the events. -/
theorem delivered_iff (box : MailBox φ ψ α) (batch : MailBatch α) (formed : box.WellFormed)
    (inStore : ∀ v ∈ batch.edges.src ++ batch.edges.dst, box.store.Has v) :
    Delivered batch box (box.mailboxStep batch) ↔ batch.TimesAligned := by
  refine ⟨fun delivered => delivered.timesAligned formed inStore, fun aligned => ⟨?_, ?_⟩⟩
  · intro v e last
    obtain ⟨mail, time, delivery, eventMail, atPosition⟩ :=
      MailBatch.delivery_last box.param last
    exact ⟨mail, time, eventMail, (aligned v e last).symm.trans atPosition,
      mailboxStep_delivery formed.store inStore delivery⟩
  · intro v has noEvent
    exact mailboxStep_other formed.store inStore has (EdgeBatch.notMem_of_noEvent noEvent)

end Step

end MailBox

/-! ## Two edges -/

/-- Two edges without features. -/
def pairMails (src dst src' dst' : Nat) : MailBatch Nat where
  edges := pairEdges src dst src' dst'
  updated := pairUpdated src dst src' dst'
  edgeFeats := [[], []]
  featsSized := rfl

theorem zeroBuffer_row {mailboxSize v : Nat} (has : (zeroBuffer mailboxSize).store.Has v) :
    (zeroBuffer mailboxSize).store.row v =
      ⟨[0], 0, List.replicate mailboxSize [0, 0], List.replicate mailboxSize 0⟩ := by
  have rows := (zeroBuffer_formed mailboxSize).memory
  have member := List.mem_map_of_mem (f := (zeroBuffer mailboxSize).store.row) has
  exact List.eq_of_mem_replicate (rows ▸ member)

theorem zeroBuffer_wellFormed {mailboxSize : Nat} (positive : 0 < mailboxSize) :
    (zeroBuffer mailboxSize).WellFormed where
  store := zeroBuffer_formed mailboxSize
  mailbox := fun v has => by
    rw [zeroBuffer_row has]
    exact List.length_replicate
  mailboxTs := fun v has => by
    rw [zeroBuffer_row has]
    exact List.length_replicate
  position := fun _ => positive

/-- The second node gets the mail of its event with the time of the other event. -/
theorem pairMails_mixed :
    (zeroBuffer 1).WellFormed ∧
      (∀ v ∈ (pairMails 1 2 3 4).edges.src ++ (pairMails 1 2 3 4).edges.dst,
        (zeroBuffer 1).store.Has v) ∧
      (pairMails 1 2 3 4).edges.times.Pairwise (· ≤ ·) ∧
      ((zeroBuffer 1).mailboxStep (pairMails 1 2 3 4)).store.row 2 =
        ⟨[0], 0, [[20, 10]], [8]⟩ ∧
      ¬MailBox.Delivered (pairMails 1 2 3 4) (zeroBuffer 1)
        ((zeroBuffer 1).mailboxStep (pairMails 1 2 3 4)) := by
  have formed := zeroBuffer_wellFormed Nat.zero_lt_one
  have inStore : ∀ v ∈ (pairMails 1 2 3 4).edges.src ++ (pairMails 1 2 3 4).edges.dst,
      (zeroBuffer 1).store.Has v := by decide
  refine ⟨formed, inStore, by decide, by decide, fun delivered => ?_⟩
  have aligned := delivered.timesAligned formed inStore
  exact absurd (aligned 2 0 (by decide)) (by decide)

/-- A first edge into a node with a loop afterwards is delivered whole. -/
theorem pairMails_loop :
    MailBox.Delivered (pairMails 1 2 2 2) (zeroBuffer 1)
      ((zeroBuffer 1).mailboxStep (pairMails 1 2 2 2)) := by
  refine (MailBox.delivered_iff _ _ (zeroBuffer_wellFormed Nat.zero_lt_one) (by decide)).mpr ?_
  intro v e last
  have bound : e < 2 := last.1.lt
  obtain rfl | rfl : e = 0 ∨ e = 1 := by omega
  · rcases last.1 with source | destination
    · obtain rfl : 1 = v := Option.some.inj source
      decide
    · obtain rfl : 2 = v := Option.some.inj destination
      exact absurd (last.2 1 (.inl rfl)) (by decide)
  · obtain rfl : 2 = v := last.1.elim Option.some.inj Option.some.inj
    decide

end Dolphin.Buffer
