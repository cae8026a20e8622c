import Dolphin.Buffer.MailDelivery
import Dolphin.Semantics.Ring

/-!
# Mailboxes with several slots

Without a buffer a node's mails go round its slots. With a buffer every mail goes to the
first slot and the next positions stay where they are, so that the two runs agree when
there is one slot, or nothing to deliver.
-/

namespace Dolphin.Buffer

open Dolphin.Memory Dolphin.Semantics Dolphin.Tensor

/-- What the batches deliver to a node, in order. -/
def deliveries {α : Type} (param : MemoryParam) (batches : List (MailBatch α)) (v : Nat) :
    List (List α × α) := batches.filterMap fun batch => batch.delivery param v

/-- A row holds the last mails, as many as it has slots, each in its slot. -/
def HoldsLast {α : Type} (param : MemoryParam) (start : Nat) (mails : List (List α × α))
    (row : NodeMem α) : Prop :=
  ∀ i mail time, mails[i]? = some (mail, time) → mails.length ≤ i + param.mailboxSize →
    row.mailbox[(start + i) % param.mailboxSize]? = some mail ∧
      row.mailboxTs[(start + i) % param.mailboxSize]? = some time

namespace MailBox

variable {φ ψ α : Type} [Inhabited α]

/-- `update_mailbox` after every batch of a sequence. -/
def runMail (box : MailBox φ ψ α) (batches : List (MailBatch α)) : MailBox φ ψ α :=
  batches.foldl mailboxStep box

/-- A mailbox on plain tables and one with a buffer have the same rows and positions. -/
structure Paired (plain buffered : MailBox φ ψ α) : Prop where
  tables : ∃ rows, plain.store = .tables rows
  buffer : ∃ gpu, buffered.store = .buffer gpu
  param : buffered.param = plain.param
  rows : ∀ v, buffered.store.Has v → buffered.store.row v = plain.store.row v
  position : ∀ v, buffered.nextMailPos v = plain.nextMailPos v

/-- Over a sequence of batches, the two write the same slots and have the same rows and
positions, and every node has its last mails. -/
structure RingAgrees (plain buffered : MailBox φ ψ α) (batches : List (MailBatch α)) : Prop where
  slot : ∀ front batch back, batches = front ++ batch :: back → ∀ v e,
    batch.edges.HasEvent v e → (buffered.runMail front).slot v = (plain.runMail front).slot v
  rows : ∀ front back, batches = front ++ back → ∀ v, buffered.store.Has v →
    (buffered.runMail front).store.row v = (plain.runMail front).store.row v
  position : ∀ front back, batches = front ++ back → ∀ v,
    (buffered.runMail front).nextMailPos v = (plain.runMail front).nextMailPos v
  holds : ∀ front back, batches = front ++ back → ∀ v, buffered.store.Has v →
    HoldsLast plain.param (plain.nextMailPos v) (deliveries plain.param front v)
      ((buffered.runMail front).store.row v)

/-! ## One batch -/

section Step

variable {box plain buffered : MailBox φ ψ α} {batch : MailBatch α}

omit [Inhabited α] in
/-- The next positions of the nodes of a call. -/
theorem advance_position (position : ∀ v, box.nextMailPos v < box.param.mailboxSize)
    (nid : List Nat) (v : Nat) :
    (box.advance nid).nextMailPos v =
      if v ∈ nid then (box.nextMailPos v + 1) % box.param.mailboxSize else box.nextMailPos v := by
  have bound := position v
  rw [advance]
  split
  · exact writeAll_map box.nextMailPos _ nid v
  case isFalse single =>
    have one : box.param.mailboxSize = 1 := by omega
    have first : box.nextMailPos v = 0 := by omega
    simp [one, first]

@[simp] theorem mailboxStep_param (box : MailBox φ ψ α) (batch : MailBatch α) :
    (box.mailboxStep batch).param = box.param := by
  have advanced (box : MailBox φ ψ α) (nid : List Nat) : (box.advance nid).param = box.param := by
    rw [advance]
    split <;> rfl
  obtain ⟨param, store, nextMailPos⟩ := box
  rw [mailboxStep_eq]
  cases store with
  | tables rows => exact advanced _ _
  | shared rows => exact advanced _ _
  | buffer gpu => rfl

/-- On plain tables the position of every node that gets a mail moves on. -/
theorem mailboxStep_tables (formed : box.WellFormed) {rows : Nat → NodeMem α}
    (tables : box.store = .tables rows) (v : Nat) :
    (box.mailboxStep batch).nextMailPos v =
      if v ∈ batch.edges.src ++ batch.edges.dst then
        (box.nextMailPos v + 1) % box.param.mailboxSize
      else box.nextMailPos v := by
  obtain ⟨param, store, nextMailPos⟩ := box
  obtain rfl : store = .tables rows := tables
  rw [mailboxStep_eq]
  refine Eq.trans (advance_position ?_ _ v) ?_
  · exact formed.position
  · simp only [mem_unique, EdgeBatch.mailNodes_iff]

/-- With a buffer no position moves. -/
theorem mailboxStep_buffer {gpu : Gpu φ ψ α} (buffer : box.store = .buffer gpu) :
    (box.mailboxStep batch).nextMailPos = box.nextMailPos := by
  obtain ⟨param, store, nextMailPos⟩ := box
  obtain rfl : store = .buffer gpu := buffer
  rw [mailboxStep_eq]
  rfl

@[simp] theorem mailboxStep_has (box : MailBox φ ψ α) (batch : MailBatch α) (v : Nat) :
    (box.mailboxStep batch).store.Has v ↔ box.store.Has v := by
  obtain ⟨nPtr, stored, -⟩ := box.mailboxStep_store batch
  rw [stored, RowStore.update_has]

/-- The next positions stay in the mailboxes. -/
theorem mailboxStep_position_lt (position : ∀ v, box.nextMailPos v < box.param.mailboxSize)
    (v : Nat) : (box.mailboxStep batch).nextMailPos v < box.param.mailboxSize := by
  have advanced (box : MailBox φ ψ α) (nid : List Nat)
      (position : ∀ v, box.nextMailPos v < box.param.mailboxSize) :
      (box.advance nid).nextMailPos v < box.param.mailboxSize := by
    rw [advance_position position]
    split
    · exact Nat.mod_lt _ ((Nat.zero_le _).trans_lt (position v))
    · exact position v
  obtain ⟨param, store, nextMailPos⟩ := box
  rw [mailboxStep_eq]
  cases store with
  | tables rows => exact advanced _ _ position
  | shared rows => exact advanced _ _ position
  | buffer gpu => exact position v

/-- An update keeps the sizes. -/
theorem WellFormed.step (formed : box.WellFormed)
    (inStore : ∀ w ∈ batch.edges.src ++ batch.edges.dst, box.store.Has w) :
    (box.mailboxStep batch).WellFormed := by
  have sizes (v : Nat) (has : box.store.Has v) :
      ((box.mailboxStep batch).store.row v).mailbox.length = box.param.mailboxSize ∧
        ((box.mailboxStep batch).store.row v).mailboxTs.length = box.param.mailboxSize := by
    have mailbox := formed.mailbox v has
    have mailboxTs := formed.mailboxTs v has
    rcases batch.delivery_cases box.param v with ⟨-, mail, time, delivered⟩ | ⟨other, -⟩
    · rw [mailboxStep_delivery formed.store inStore delivered]
      exact ⟨List.length_set.trans mailbox, List.length_set.trans mailboxTs⟩
    · rw [mailboxStep_other formed.store inStore has other]
      exact ⟨mailbox, mailboxTs⟩
  refine ⟨?_, fun v has => ?_, fun v has => ?_, fun v => ?_⟩
  · obtain ⟨nPtr, stored, -⟩ := box.mailboxStep_store batch
    rw [stored]
    exact formed.store.update _
  · rw [mailboxStep_param]
    exact (sizes v ((mailboxStep_has box batch v).mp has)).1
  · rw [mailboxStep_param]
    exact (sizes v ((mailboxStep_has box batch v).mp has)).2
  · rw [mailboxStep_param]
    exact mailboxStep_position_lt formed.position v

omit [Inhabited α] in
/-- A batch without edges has no nodes. -/
theorem not_mem_nodes (empty : batch.edges.src = []) (v : Nat) :
    v ∉ batch.edges.src ++ batch.edges.dst := by
  have none : batch.edges.dst = [] :=
    List.eq_nil_of_length_eq_zero (by rw [batch.edges.dstSized, empty]; rfl)
  simp [empty, none]

/-- There is one slot or nothing to deliver. -/
def SlotFixed (param : MemoryParam) (batch : MailBatch α) : Prop :=
  param.mailboxSize = 1 ∨ batch.edges.src = []

/-- Then the two write the same slot. -/
theorem Paired.slot (paired : Paired plain buffered) (formed : plain.WellFormed)
    (fixed : SlotFixed plain.param batch) {v : Nat}
    (member : v ∈ batch.edges.src ++ batch.edges.dst) : buffered.slot v = plain.slot v := by
  obtain ⟨rows, tables⟩ := paired.tables
  obtain ⟨gpu, buffer⟩ := paired.buffer
  rcases fixed with one | empty
  · have first := formed.slot_lt v
    have zero : plain.slot v = 0 := by omega
    rw [zero, MailBox.slot, buffer]
  · exact absurd member (not_mem_nodes empty v)

/-- Then the position of a node stays where it is. -/
theorem position_fixed (formed : box.WellFormed) {rows : Nat → NodeMem α}
    (tables : box.store = .tables rows) (fixed : SlotFixed box.param batch) (v : Nat) :
    (box.mailboxStep batch).nextMailPos v = box.nextMailPos v := by
  rw [mailboxStep_tables formed tables]
  split
  case isTrue member =>
    rcases fixed with one | empty
    · have first := formed.position v
      rw [one, Nat.mod_one]
      omega
    · exact absurd member (not_mem_nodes empty v)
  case isFalse => rfl

/-- Then the two runs stay together. -/
theorem Paired.step (paired : Paired plain buffered) (plainFormed : plain.WellFormed)
    (formed : buffered.WellFormed)
    (inMap : ∀ v ∈ batch.edges.src ++ batch.edges.dst, buffered.store.Has v)
    (fixed : SlotFixed plain.param batch) :
    Paired (plain.mailboxStep batch) (buffered.mailboxStep batch) := by
  obtain ⟨rows, tables⟩ := paired.tables
  obtain ⟨gpu, buffer⟩ := paired.buffer
  have everyHas := RowStore.has_of_tables tables
  refine ⟨?_, ?_, ?_, fun v has => ?_, fun v => ?_⟩
  · obtain ⟨nPtr, stored, -⟩ := plain.mailboxStep_store batch
    rw [stored, tables]
    exact ⟨_, rfl⟩
  · obtain ⟨nPtr, stored, -⟩ := buffered.mailboxStep_store batch
    rw [stored, buffer]
    exact ⟨_, rfl⟩
  · rw [mailboxStep_param, mailboxStep_param, paired.param]
  · have before := paired.rows v ((mailboxStep_has buffered batch v).mp has)
    rcases batch.delivery_cases plain.param v with
      ⟨member, mail, time, delivered⟩ | ⟨other, -⟩
    · rw [mailboxStep_delivery plainFormed.store (fun w _ => everyHas w) delivered,
        mailboxStep_delivery formed.store inMap (paired.param ▸ delivered), before,
        paired.slot plainFormed fixed member]
    · rw [mailboxStep_other plainFormed.store (fun w _ => everyHas w) (everyHas v) other,
        mailboxStep_other formed.store inMap ((mailboxStep_has buffered batch v).mp has) other,
        before]
  · rw [mailboxStep_buffer buffer, position_fixed plainFormed tables fixed, paired.position]

end Step

/-! ## A sequence of batches -/

section Run

variable {box plain buffered : MailBox φ ψ α} {batches : List (MailBatch α)}

theorem runMail_snoc (box : MailBox φ ψ α) (front : List (MailBatch α)) (batch : MailBatch α) :
    box.runMail (front ++ [batch]) = (box.runMail front).mailboxStep batch :=
  List.foldl_append

theorem runMail_param (box : MailBox φ ψ α) (batches : List (MailBatch α)) :
    (box.runMail batches).param = box.param := by
  induction batches using List.reverseRecOn with
  | nil => rfl
  | append_singleton front batch ih => rw [runMail_snoc, mailboxStep_param, ih]

theorem runMail_has (box : MailBox φ ψ α) (batches : List (MailBatch α)) (v : Nat) :
    (box.runMail batches).store.Has v ↔ box.store.Has v := by
  induction batches using List.reverseRecOn with
  | nil => rfl
  | append_singleton front batch ih => rw [runMail_snoc, mailboxStep_has, ih]

/-- The nodes of the batches have rows. -/
def MailsInStore (box : MailBox φ ψ α) (batches : List (MailBatch α)) : Prop :=
  ∀ batch ∈ batches, ∀ v ∈ batch.edges.src ++ batch.edges.dst, box.store.Has v

omit [Inhabited α] in
theorem MailsInStore.split {front back : List (MailBatch α)} {batch : MailBatch α}
    (inStore : box.MailsInStore (front ++ batch :: back)) :
    box.MailsInStore front ∧ ∀ v ∈ batch.edges.src ++ batch.edges.dst, box.store.Has v :=
  ⟨fun other member => inStore other (List.mem_append_left _ member),
    inStore batch (List.mem_append_right _ List.mem_cons_self)⟩

theorem WellFormed.run (formed : box.WellFormed) (inStore : box.MailsInStore batches) :
    (box.runMail batches).WellFormed := by
  induction batches using List.reverseRecOn with
  | nil => exact formed
  | append_singleton front batch ih =>
      obtain ⟨before, here⟩ := inStore.split
      rw [runMail_snoc]
      exact (ih before).step fun v member => (runMail_has box front v).mpr (here v member)

/-- Plain tables have a row for every node. -/
theorem WellFormed.run_tables (formed : box.WellFormed) {rows : Nat → NodeMem α}
    (tables : box.store = .tables rows) (batches : List (MailBatch α)) :
    (box.runMail batches).WellFormed :=
  formed.run fun _ _ v _ => RowStore.has_of_tables tables v

theorem runMail_tables {rows : Nat → NodeMem α} (tables : box.store = .tables rows)
    (batches : List (MailBatch α)) : ∃ rows, (box.runMail batches).store = .tables rows := by
  induction batches using List.reverseRecOn with
  | nil => exact ⟨rows, tables⟩
  | append_singleton front batch ih =>
      obtain ⟨rows, before⟩ := ih
      obtain ⟨nPtr, stored, -⟩ := (box.runMail front).mailboxStep_store batch
      rw [runMail_snoc, stored, before]
      exact ⟨_, rfl⟩

theorem runMail_buffer {gpu : Gpu φ ψ α} (buffer : box.store = .buffer gpu)
    (batches : List (MailBatch α)) :
    (∃ gpu, (box.runMail batches).store = .buffer gpu) ∧
      (box.runMail batches).nextMailPos = box.nextMailPos := by
  induction batches using List.reverseRecOn with
  | nil => exact ⟨⟨gpu, buffer⟩, rfl⟩
  | append_singleton front batch ih =>
      obtain ⟨⟨gpu, before⟩, position⟩ := ih
      obtain ⟨nPtr, stored, -⟩ := (box.runMail front).mailboxStep_store batch
      rw [runMail_snoc, stored, mailboxStep_buffer before, before]
      exact ⟨⟨_, rfl⟩, position⟩

/-- The two runs stay together over a sequence. -/
theorem Paired.run (paired : Paired plain buffered) (plainFormed : plain.WellFormed)
    (formed : buffered.WellFormed) (inMap : buffered.MailsInStore batches)
    (fixed : ∀ batch ∈ batches, SlotFixed plain.param batch) :
    Paired (plain.runMail batches) (buffered.runMail batches) := by
  obtain ⟨rows, tables⟩ := paired.tables
  induction batches using List.reverseRecOn with
  | nil => exact paired
  | append_singleton front batch ih =>
      obtain ⟨before, here⟩ := inMap.split
      obtain ⟨fixedBefore, fixedHere⟩ := List.forall_mem_append.mp fixed
      rw [runMail_snoc, runMail_snoc]
      refine (ih before fixedBefore).step (plainFormed.run_tables tables front)
        (formed.run before) (fun v member => (runMail_has buffered front v).mpr (here v member)) ?_
      rw [runMail_param]
      exact fixedHere batch (List.mem_singleton_self _)

/-! ## The ring -/

theorem deliveries_snoc {α : Type} (param : MemoryParam) (front : List (MailBatch α))
    (batch : MailBatch α) (v : Nat) :
    deliveries param (front ++ [batch]) v =
      deliveries param front v ++ (batch.delivery param v).toList := by
  rw [deliveries, List.filterMap_append]
  cases delivered : batch.delivery param v with
  | none => simp [deliveries, delivered]
  | some mail => simp [deliveries, delivered]

/-- On plain tables the mails of a node go round its slots. -/
theorem runMail_ring (formed : plain.WellFormed) {rows : Nat → NodeMem α}
    (tables : plain.store = .tables rows) (batches : List (MailBatch α)) (v : Nat) :
    ((plain.runMail batches).store.row v).mailbox =
        pushAll (plain.nextMailPos v) (plain.store.row v).mailbox
          ((deliveries plain.param batches v).map Prod.fst) ∧
      ((plain.runMail batches).store.row v).mailboxTs =
        pushAll (plain.nextMailPos v) (plain.store.row v).mailboxTs
          ((deliveries plain.param batches v).map Prod.snd) ∧
      (plain.runMail batches).nextMailPos v =
        (plain.nextMailPos v + (deliveries plain.param batches v).length) %
          plain.param.mailboxSize := by
  have everyHas := RowStore.has_of_tables tables
  induction batches using List.reverseRecOn with
  | nil => exact ⟨rfl, rfl, (Nat.mod_eq_of_lt (formed.position v)).symm⟩
  | append_singleton front batch ih =>
      obtain ⟨mailbox, mailboxTs, position⟩ := ih
      have runFormed := formed.run_tables tables front
      have runHas (v : Nat) : (plain.runMail front).store.Has v :=
        (runMail_has plain front v).mpr (everyHas v)
      obtain ⟨rows, runTables⟩ := runMail_tables tables front
      have slot : (plain.runMail front).slot v = (plain.runMail front).nextMailPos v := by
        rw [MailBox.slot, runTables]
      rw [runMail_snoc, deliveries_snoc, mailboxStep_tables runFormed runTables, runMail_param]
      rcases batch.delivery_cases plain.param v with
        ⟨member, mail, time, delivered⟩ | ⟨other, none⟩
      · rw [mailboxStep_delivery runFormed.store (fun w _ => runHas w)
          (by rw [runMail_param]; exact delivered), delivered, slot, if_pos member]
        simp only [Option.toList_some, List.map_append, List.map_cons, List.map_nil, pushAll_snoc,
          List.length_append, List.length_map, List.length_singleton]
        refine ⟨?_, ?_, ?_⟩
        · rw [formed.mailbox v (everyHas v), ← mailbox, ← position]
          rfl
        · rw [formed.mailboxTs v (everyHas v), ← mailboxTs, ← position]
          rfl
        · rw [position, Nat.mod_add_mod, Nat.add_assoc]
      · rw [mailboxStep_other runFormed.store (fun w _ => runHas w) (runHas v) other, none,
          if_neg other]
        simp only [Option.toList_none, List.append_nil]
        exact ⟨mailbox, mailboxTs, position⟩

/-- On plain tables every node has its last mails, for any number of slots. -/
theorem runMail_holdsLast (formed : plain.WellFormed) {rows : Nat → NodeMem α}
    (tables : plain.store = .tables rows) (batches : List (MailBatch α)) (v : Nat) :
    HoldsLast plain.param (plain.nextMailPos v) (deliveries plain.param batches v)
      ((plain.runMail batches).store.row v) := by
  have has := RowStore.has_of_tables tables v
  obtain ⟨mailbox, mailboxTs, -⟩ := runMail_ring formed tables batches v
  intro i mail time delivered recent
  have bound := (List.getElem?_eq_some_iff.mp delivered).1
  constructor
  · rw [mailbox, ← formed.mailbox v has, pushAll_recent (by simpa using bound)
      (by simpa [formed.mailbox v has] using recent), List.getElem?_map, delivered]
    rfl
  · rw [mailboxTs, ← formed.mailboxTs v has, pushAll_recent (by simpa using bound)
      (by simpa [formed.mailboxTs v has] using recent), List.getElem?_map, delivered]
    rfl

/-- Positions that agree throughout were not moved: there is one slot, or nothing was
delivered. -/
theorem RingAgrees.fixed (agrees : RingAgrees plain buffered batches)
    (paired : Paired plain buffered) (formed : plain.WellFormed) :
    plain.param.mailboxSize = 1 ∨ ∀ batch ∈ batches, batch.edges.src = [] := by
  obtain ⟨rows, tables⟩ := paired.tables
  obtain ⟨gpu, buffer⟩ := paired.buffer
  rw [or_iff_not_imp_left]
  intro several batch member
  by_contra edges
  obtain ⟨front, back, rfl⟩ := List.append_of_mem member
  obtain ⟨v, source⟩ := List.exists_mem_of_ne_nil _ edges
  have runFormed := formed.run_tables tables front
  obtain ⟨runRows, runTables⟩ := runMail_tables tables front
  have before := agrees.position front (batch :: back) rfl v
  have after := agrees.position (front ++ [batch]) back (by simp) v
  rw [(runMail_buffer buffer _).2] at before after
  rw [runMail_snoc, mailboxStep_tables runFormed runTables,
    if_pos (List.mem_append_left _ source), ← before, runMail_param, paired.position] at after
  -- the position moves to another slot, as there are several
  rcases (Nat.succ_le_of_lt (formed.position v)).eq_or_lt with last | inside
  · rw [← last, Nat.mod_self] at after
    omega
  · rw [Nat.mod_eq_of_lt inside] at after
    omega

/-- A run with a buffer agrees with one on plain tables exactly when there is one slot or
no batch of the sequence has an edge. -/
theorem ringAgrees_iff (plain buffered : MailBox φ ψ α) (batches : List (MailBatch α))
    (paired : Paired plain buffered) (plainFormed : plain.WellFormed)
    (formed : buffered.WellFormed) (inMap : buffered.MailsInStore batches) :
    RingAgrees plain buffered batches ↔
      plain.param.mailboxSize = 1 ∨ ∀ batch ∈ batches, batch.edges.src = [] := by
  refine ⟨fun agrees => agrees.fixed paired plainFormed, fun fixed => ?_⟩
  obtain ⟨rows, tables⟩ := paired.tables
  have together (front back : List (MailBatch α)) (split : batches = front ++ back) :
      Paired (plain.runMail front) (buffered.runMail front) := by
    subst split
    refine paired.run plainFormed formed
      (fun batch member => inMap batch (List.mem_append_left _ member)) fun batch member => ?_
    exact fixed.imp_right fun empty => empty batch (List.mem_append_left _ member)
  refine ⟨?_, ?_, ?_, ?_⟩
  · intro front batch back split v e event
    refine (together front _ split).slot (plainFormed.run_tables tables front) ?_ event.mem
    rw [runMail_param]
    exact fixed.imp_right fun empty =>
      empty batch (split ▸ List.mem_append_right _ List.mem_cons_self)
  · intro front back split v has
    exact (together front back split).rows v ((runMail_has buffered front v).mpr has)
  · intro front back split v
    exact (together front back split).position v
  · intro front back split v has
    rw [(together front back split).rows v ((runMail_has buffered front v).mpr has)]
    exact runMail_holdsLast plainFormed tables front v

end Run

end MailBox

/-! ## Two edges -/

/-- Plain tables with empty mailboxes. -/
def zeroTables (mailboxSize : Nat) : MailBox Nat Nat Nat where
  param := ⟨1, mailboxSize, 0⟩
  store := .tables fun _ =>
    ⟨[0], 0, List.replicate mailboxSize [0, 0], List.replicate mailboxSize 0⟩
  nextMailPos := fun _ => 0

theorem zeroTables_wellFormed {mailboxSize : Nat} (positive : 0 < mailboxSize) :
    (zeroTables mailboxSize).WellFormed where
  store := trivial
  mailbox := fun _ _ => List.length_replicate
  mailboxTs := fun _ _ => List.length_replicate
  position := fun _ => positive

theorem zeroTables_paired (mailboxSize : Nat) :
    MailBox.Paired (zeroTables mailboxSize) (zeroBuffer mailboxSize) where
  tables := ⟨_, rfl⟩
  buffer := ⟨_, rfl⟩
  param := rfl
  rows := fun _ has => zeroBuffer_row has
  position := fun _ => rfl

/-- Two batches with the same edge into node 2. -/
def twoBatches : List (MailBatch Nat) := [pairMails 1 2 3 2, pairMails 1 2 3 2]

theorem twoBatches_inStore (mailboxSize : Nat) :
    (zeroBuffer mailboxSize).MailsInStore twoBatches := by
  intro batch member v inBatch
  obtain rfl | rfl : batch = pairMails 1 2 3 2 ∨ batch = pairMails 1 2 3 2 := by
    simpa [twoBatches] using member
  all_goals
    refine (zeroBuffer_has mailboxSize).mpr ?_
    revert v
    decide

theorem twoBatches_agree : MailBox.RingAgrees (zeroTables 1) (zeroBuffer 1) twoBatches :=
  (MailBox.ringAgrees_iff _ _ _ (zeroTables_paired 1) (zeroTables_wellFormed Nat.zero_lt_one)
    (zeroBuffer_wellFormed Nat.zero_lt_one) (twoBatches_inStore 1)).mpr (.inl rfl)

/-- With two slots the second mail of node 2 overwrites the first one in the buffer. -/
theorem twoBatches_overwritten :
    MailBox.Paired (zeroTables 2) (zeroBuffer 2) ∧ (zeroTables 2).WellFormed ∧
      (zeroBuffer 2).WellFormed ∧ (zeroBuffer 2).MailsInStore twoBatches ∧
      (((zeroTables 2).runMail twoBatches).store.row 2).mailboxTs = [8, 8] ∧
      (((zeroBuffer 2).runMail twoBatches).store.row 2).mailboxTs = [8, 0] ∧
      ¬MailBox.RingAgrees (zeroTables 2) (zeroBuffer 2) twoBatches := by
  refine ⟨zeroTables_paired 2, zeroTables_wellFormed Nat.zero_lt_two,
    zeroBuffer_wellFormed Nat.zero_lt_two, twoBatches_inStore 2, by decide, by decide,
    fun agrees => ?_⟩
  have rows := agrees.rows twoBatches [] (List.append_nil _).symm 2 (by decide)
  exact absurd (congrArg NodeMem.mailboxTs rows) (by decide)

end Dolphin.Buffer
