import Dolphin.Buffer.NodeRows
import Dolphin.Graph.SearchExact

/-!
# Lookups by id

Six methods of the buffer look their ids up in a map and use what they find as an index.
An id of the map is found at its own row. The entry of any other id stays −1, and the
index −1 is the last row: the lookup reads and writes the row of the greatest id instead,
and no method reports it. In a map of more than 2³⁰ ids the search for one of them may
leave the map.
-/

namespace Dolphin.Buffer

open Dolphin.Graph Dolphin.Memory Dolphin.Semantics

/-- What the methods raise. -/
inductive Raised where
  | indexError
  | bufferError (message : String)
  deriving DecidableEq

/-- The place that an index means in a tensor; a negative one counts from the end. -/
def indexPlace (length : Nat) (index : Int) : Except Raised Nat :=
  if 0 ≤ index then
    if index.toNat < length then .ok index.toNat else .error .indexError
  else if -length ≤ index then .ok (length + index).toNat else .error .indexError

/-- `rows[i]` -/
def indexRow {β : Type} (rows : List β) (index : Int) : Except Raised β := do
  let place ← indexPlace rows.length index
  match rows[place]? with
  | some row => .ok row
  | none => .error .indexError

/-- `rows[index]`. -/
def indexRows {β : Type} (rows : List β) (index : List Int) : Except Raised (List β) :=
  index.mapM (indexRow rows)

namespace Lookup

variable {φ ψ α : Type}

/-- `mem_detection`, as the constructor sets it. -/
def memDetection : Bool := false

/-- `dgl.findSameIndex(map, ids, table1, table2)` as far as `table2`; `none` where a search
reads outside of its table. -/
def table2 (map ids : List Nat) : Option (List Int) :=
  (SearchKernel.toFindSameIndexKernel map ids (SearchKernel.unset map)
    (SearchKernel.unset ids)).map Prod.snd

/-- `get_n_feat`. -/
def getNFeat (gpu : Gpu φ ψ α) (nid : List Nat) : Option (Except Raised (List φ)) :=
  (table2 gpu.node.map nid).map (indexRows gpu.node.feats)

/-- `get_e_feat`. -/
def getEFeat (gpu : Gpu φ ψ α) (eid : List Nat) : Option (Except Raised (List ψ)) :=
  (table2 gpu.edge.map eid).map (indexRows gpu.edge.feats)

/-- `get_mails`. -/
def getMails (gpu : Gpu φ ψ α) (nid : List Nat) : Option (Except Raised (List (NodeMem α))) :=
  (table2 gpu.node.map nid).map (indexRows gpu.memory)

/-- `input_mails` with its `table2`. The detection compares the rows with `det_memory` and
the other tensors of the run without a buffer. -/
def detected [DecidableEq α] (gpu : Gpu φ ψ α) (det : Nat → NodeMem α) (nid : List Nat)
    (table2 : List Int) : Except Raised (List (NodeMem α)) := do
  let rows ← indexRows gpu.memory table2
  if memDetection && (decide (rows ≠ nid.map det) || table2.contains (-1)) then
    .error (.bufferError ("There has been an incident where the internal state of the buffer " ++
      "is inconsistent with the non-cached scenario!"))
  else .ok rows

/-- `input_mails`. -/
def inputMails [DecidableEq α] (gpu : Gpu φ ψ α) (det : Nat → NodeMem α) (nid : List Nat) :
    Option (Except Raised (List (NodeMem α))) :=
  (table2 gpu.node.map nid).map (detected gpu det nid)

/-- The rows of `table2` changed as a call says. -/
def write (gpu : Gpu φ ψ α) (call : Update α) (table2 : List Int) :
    Except Raised (Gpu φ ψ α) := do
  let places ← table2.mapM (indexPlace gpu.memory.length)
  .ok { gpu with
    memory := editColumn (fun place => place) gpu.memory
      (places.zip (call.edits.map Prod.snd)) }

/-- `update_memory` and `update_mailbox`. -/
def update (gpu : Gpu φ ψ α) (call : Update α) : Option (Except Raised (Gpu φ ψ α)) :=
  (table2 gpu.node.map call.nid).map (write gpu call)

end Lookup

/-! ## What the lookups promise -/

/-- A method reads the rows of ids that are all in the map, and reports any other id. -/
structure Reads {β : Type} (get : List Nat → Option (Except Raised (List β)))
    (map : List Nat) (table : Nat → β) (ids : List Nat) : Prop where
  known : (∀ id ∈ ids, id ∈ map) → get ids = some (.ok (ids.map table))
  reported : (∃ id ∈ ids, id ∉ map) → ∃ raised, get ids = some (.error raised)

section Writes

variable {φ ψ α : Type}

/-- A method changes the rows of ids that are all in the map and no others, and reports
any other id. -/
structure Writes (gpu : Gpu φ ψ α) (table : Nat → NodeMem α) (call : Update α) : Prop where
  known : (∀ id ∈ call.nid, id ∈ gpu.node.map) → ∃ after changed,
    Lookup.update gpu call = some (.ok after) ∧ after.node = gpu.node ∧ after.edge = gpu.edge ∧
      after.memory = gpu.node.map.map changed ∧
      (∀ edit ∈ call.edits, changed edit.1 = edit.2 (table edit.1)) ∧
      ∀ v, v ∉ call.nid → changed v = table v
  reported : (∃ id ∈ call.nid, id ∉ gpu.node.map) → ∃ raised,
    Lookup.update gpu call = some (.error raised)

/-- The ids of a map are increasing and of type `int32`, and there are some. -/
structure IdMap (map : List Nat) : Prop where
  increasing : map.Pairwise (· < ·)
  int32 : ∀ id ∈ map, id < 2 ^ 31
  nonempty : map ≠ []

/-- The buffer of a block: its tensors have a row for every id of their map. -/
structure Loaded (gpu : Gpu φ ψ α) (nodeFeat : Nat → φ) (edgeFeat : Nat → ψ)
    (table : Nat → NodeMem α) : Prop where
  nodes : IdMap gpu.node.map
  nodeFeats : gpu.node.feats = gpu.node.map.map nodeFeat
  edges : IdMap gpu.edge.map
  edgeFeats : gpu.edge.feats = gpu.edge.map.map edgeFeat
  memory : gpu.memory = gpu.node.map.map table

/-- The ids are in the map, and all searches of the lookup stay in their tables. -/
structure Searched (map ids : List Nat) : Prop where
  known : ∀ id ∈ ids, id ∈ map
  inMap : ∀ id ∈ ids, ¬SearchKernel.Overflows map id
  inIds : ∀ id ∈ map, ¬SearchKernel.Overflows ids id

/-- Tables of this length are always searched so. -/
theorem Searched.of_length {map ids : List Nat} (known : ∀ id ∈ ids, id ∈ map)
    (shortMap : map.length ≤ 2 ^ 30) (shortIds : ids.length ≤ 2 ^ 30) : Searched map ids where
  known := known
  inMap _ _ := SearchKernel.not_overflows_of_length shortMap
  inIds _ _ := SearchKernel.not_overflows_of_length shortIds

end Writes

/-! ## Searching -/

section Searching

variable {map ids : List Nat}

/-- There are at most as many ids as the type has. -/
theorem IdMap.length_le (formed : IdMap map) : map.length ≤ 2 ^ 31 := by
  have inside : map ⊆ List.range (2 ^ 31) := fun id member =>
    List.mem_range.mpr (formed.int32 id member)
  have distinct : map.Nodup := formed.increasing.imp Nat.ne_of_lt
  have count := distinct.length_le_of_subset inside
  rwa [List.length_range] at count

theorem table2_eq (formed : IdMap map) (first : ∀ id ∈ map, ¬SearchKernel.Overflows ids id)
    (second : ∀ id ∈ ids, ¬SearchKernel.Overflows map id) :
    Lookup.table2 map ids = some ((findSameIndex ids map).map SearchKernel.entry) := by
  obtain ⟨table1, run⟩ := SearchKernel.toFindSameIndexKernel_second
    (SearchKernel.reach_of_small formed.length_le) first second
  rw [Lookup.table2, run]
  rfl

/-- A lookup that ends has searched in its tables only. -/
theorem not_overflows_of_table2 {index : List Int} (ended : Lookup.table2 map ids = some index) :
    (∀ id ∈ map, ¬SearchKernel.Overflows ids id) ∧
      ∀ id ∈ ids, ¬SearchKernel.Overflows map id := by
  obtain ⟨tables, run, -⟩ := Option.map_eq_some_iff.mp ended
  exact SearchKernel.not_overflows_of_kernel run

/-- An id that the map does not have is not found. -/
theorem findIndexAndSet_missing {id : Nat} (missing : id ∉ map) :
    findIndexAndSet map id map.length 0 map.length = none := by
  rw [Option.eq_none_iff_forall_ne_some]
  intro i found
  exact missing (List.mem_of_getElem? (findIndexAndSet_sound le_rfl found))

/-- The row of an id: its own, or else that of the greatest id. -/
theorem rowIndex_row (formed : IdMap map) (id : Nat) : map[rowIndex map id]? =
    some (if id ∈ map then id else map.getLast formed.nonempty) := by
  by_cases known : id ∈ map
  · rw [if_pos known, rowIndex_spec formed.increasing known]
  · rw [if_neg known, rowIndex, findIndexAndSet_missing known, Option.getD_none,
      ← List.getLast?_eq_getElem?, List.getLast?_eq_some_getLast formed.nonempty]

/-- The index of an id means its row. -/
theorem indexPlace_find (formed : IdMap map) (id : Nat) :
    indexPlace map.length (SearchKernel.entry (findIndexAndSet map id map.length 0 map.length)) =
      .ok (rowIndex map id) := by
  have positive := List.length_pos_of_ne_nil formed.nonempty
  by_cases known : id ∈ map
  · obtain ⟨i, found, value⟩ := findSameIndex_mem (formed.increasing.imp Nat.le_of_lt) known
    have inside := (List.getElem?_eq_some_iff.mp value).1
    simp [rowIndex, found, indexPlace, SearchKernel.entry, inside]
  · have last : ((map.length : Int) + -1).toNat = map.length - 1 := by omega
    have counted : -(map.length : Int) ≤ -1 := by omega
    simp [rowIndex, findIndexAndSet_missing known, indexPlace, SearchKernel.entry, counted, last]

end Searching

/-! ## Reading -/

section Reading

variable {β : Type} {map ids : List Nat} {table : Nat → β}

/-- The row at a place. -/
theorem indexRow_of_place {rows : List β} {index : Int} {place : Nat} {row : β}
    (placed : indexPlace rows.length index = .ok place) (here : rows[place]? = some row) :
    indexRow rows index = .ok row := by
  rw [indexRow, placed]
  simp only [bind, Except.bind, here]

/-- The row that is read for an id. -/
theorem indexRow_find (formed : IdMap map) (id : Nat) :
    indexRow (map.map table)
        (SearchKernel.entry (findIndexAndSet map id map.length 0 map.length)) =
      .ok (table (if id ∈ map then id else map.getLast formed.nonempty)) := by
  have placed : indexPlace (map.map table).length
      (SearchKernel.entry (findIndexAndSet map id map.length 0 map.length)) =
        .ok (rowIndex map id) := by
    rw [List.length_map, indexPlace_find formed]
  refine indexRow_of_place placed ?_
  rw [List.getElem?_map, rowIndex_row formed, Option.map_some]

/-- A lookup always reads rows. -/
theorem indexRows_find (formed : IdMap map) (ids : List Nat) :
    indexRows (map.map table) ((findSameIndex ids map).map SearchKernel.entry) =
      .ok (ids.map fun id => table (if id ∈ map then id else map.getLast formed.nonempty)) := by
  rw [indexRows, findSameIndex, List.map_map, List.mapM_map]
  exact mapM_eq_map fun id _ => indexRow_find formed id

/-- A lookup promises what it should exactly for ids of the map that are searched for in
the tables. -/
theorem reads_iff (formed : IdMap map) {get : List Nat → Option (Except Raised (List β))}
    (lookup : ∀ ids, get ids = (Lookup.table2 map ids).map (indexRows (map.map table)))
    (ids : List Nat) : Reads get map table ids ↔ Searched map ids := by
  constructor
  · intro reads
    have known : ∀ id ∈ ids, id ∈ map := by
      intro id member
      by_contra missing
      obtain ⟨raised, failed⟩ := reads.reported ⟨id, member, missing⟩
      rw [lookup] at failed
      obtain ⟨index, ended, raises⟩ := Option.map_eq_some_iff.mp failed
      obtain ⟨first, second⟩ := not_overflows_of_table2 ended
      rw [table2_eq formed first second] at ended
      obtain rfl := Option.some.inj ended
      rw [indexRows_find formed] at raises
      cases raises
    have found := reads.known known
    rw [lookup] at found
    obtain ⟨index, ended, -⟩ := Option.map_eq_some_iff.mp found
    obtain ⟨first, second⟩ := not_overflows_of_table2 ended
    exact ⟨known, second, first⟩
  · intro searched
    refine ⟨fun known => ?_, fun ⟨id, member, missing⟩ =>
      absurd (searched.known id member) missing⟩
    rw [lookup, table2_eq formed searched.inIds searched.inMap, Option.map_some,
      indexRows_find formed]
    refine congrArg (some ∘ Except.ok) (List.map_congr_left fun id member => ?_)
    rw [if_pos (known id member)]

end Reading

/-! ## Writing -/

section Writing

variable {φ ψ α : Type} {gpu : Gpu φ ψ α} {table : Nat → NodeMem α}

/-- The ids of the edits of a call are among those of the call, in order. -/
theorem Update.edits_sublist (call : Update α) :
    (call.edits.map Prod.fst).Sublist call.nid := by
  cases call with
  | memory nid mem ts => exact zip_fst_sublist _ _
  | mailbox nid mail mailTs nPtr => exact zip_fst_sublist _ _

/-- The edits of a call at the places of its ids. -/
theorem Update.zip_places (call : Update α) (place : Nat → Nat) :
    (call.nid.map place).zip (call.edits.map Prod.snd) =
      call.edits.map fun edit => (place edit.1, edit.2) := by
  have pairs : ∀ (ids : List Nat) (changes : List (NodeMem α → NodeMem α)),
      (ids.map place).zip ((ids.zip changes).map Prod.snd) =
        (ids.zip changes).map fun edit => (place edit.1, edit.2) := by
    intro ids
    induction ids with
    | nil => exact fun _ => rfl
    | cons id ids ih =>
        intro changes
        cases changes with
        | nil => rfl
        | cons change changes => exact congrArg (_ :: ·) (ih changes)
  cases call with
  | memory nid mem ts => exact pairs _ _
  | mailbox nid mail mailTs nPtr => exact pairs _ _

/-- An update always writes rows, those of the searches on natural numbers. -/
theorem write_find (formed : IdMap gpu.node.map)
    (rows : gpu.memory = gpu.node.map.map table) (call : Update α) :
    Lookup.write gpu call
        ((findSameIndex call.nid gpu.node.map).map SearchKernel.entry) =
      .ok (gpu.update call) := by
  have places : ((findSameIndex call.nid gpu.node.map).map SearchKernel.entry).mapM
      (indexPlace gpu.memory.length) = .ok (call.nid.map (rowIndex gpu.node.map)) := by
    rw [rows, List.length_map, findSameIndex, List.map_map, List.mapM_map]
    exact mapM_eq_map fun id _ => indexPlace_find formed id
  rw [Lookup.write, places]
  change Except.ok { gpu with memory := _ } = _
  rw [Update.zip_places, editColumn, List.foldl_map]
  rfl

/-- An update promises what it should exactly for ids of the map that are searched for in
the tables. -/
theorem writes_iff (formed : IdMap gpu.node.map)
    (rows : gpu.memory = gpu.node.map.map table) {call : Update α} (distinct : call.nid.Nodup) :
    Writes gpu table call ↔ Searched gpu.node.map call.nid := by
  constructor
  · intro writes
    have known : ∀ id ∈ call.nid, id ∈ gpu.node.map := by
      intro id member
      by_contra missing
      obtain ⟨raised, failed⟩ := writes.reported ⟨id, member, missing⟩
      obtain ⟨index, ended, raises⟩ := Option.map_eq_some_iff.mp failed
      obtain ⟨first, second⟩ := not_overflows_of_table2 ended
      rw [table2_eq formed first second] at ended
      obtain rfl := Option.some.inj ended
      rw [write_find formed rows] at raises
      cases raises
    obtain ⟨after, changed, written, -⟩ := writes.known known
    obtain ⟨index, ended, -⟩ := Option.map_eq_some_iff.mp written
    obtain ⟨first, second⟩ := not_overflows_of_table2 ended
    exact ⟨known, second, first⟩
  · intro searched
    refine ⟨fun known => ?_, fun ⟨id, member, missing⟩ =>
      absurd (searched.known id member) missing⟩
    refine ⟨gpu.update call, editAll table call.edits, ?_, rfl, rfl,
      Gpu.update_memory formed.increasing rows known, ?_, ?_⟩
    · rw [Lookup.update, table2_eq formed searched.inIds searched.inMap, Option.map_some,
        write_find formed rows]
    · intro edit member
      exact editAll_mem (distinct.sublist call.edits_sublist) table member
    · intro v other
      exact editAll_other (fun member => other (call.edits_nid member)) table

end Writing

/-! ## The six methods -/

section Methods

variable {φ ψ α : Type} [DecidableEq α]

theorem inputMails_eq (gpu : Gpu φ ψ α) (det : Nat → NodeMem α) (nid : List Nat) :
    Lookup.inputMails gpu det nid = Lookup.getMails gpu nid := by
  have same : Lookup.detected gpu det nid = indexRows gpu.memory := by
    funext table2
    rw [Lookup.detected]
    cases indexRows gpu.memory table2 with
    | error raised => rfl
    | ok rows => rfl
  rw [Lookup.inputMails, Lookup.getMails, same]

/-- Each of the six methods reads or writes the rows of its ids only, and reports the ids
that have no row, exactly when all its ids are in the map and are searched for in the
tables. -/
theorem lookups_iff (gpu : Gpu φ ψ α) (det : Nat → NodeMem α) (nodeFeat : Nat → φ)
    (edgeFeat : Nat → ψ) (table : Nat → NodeMem α) (loaded : Loaded gpu nodeFeat edgeFeat table) :
    (∀ nid, Reads (Lookup.getNFeat gpu) gpu.node.map nodeFeat nid ↔ Searched gpu.node.map nid) ∧
      (∀ eid, Reads (Lookup.getEFeat gpu) gpu.edge.map edgeFeat eid ↔
        Searched gpu.edge.map eid) ∧
      (∀ nid, Reads (Lookup.getMails gpu) gpu.node.map table nid ↔ Searched gpu.node.map nid) ∧
      (∀ nid, Reads (Lookup.inputMails gpu det) gpu.node.map table nid ↔
        Searched gpu.node.map nid) ∧
      (∀ nid memory ts, nid.Nodup → (Writes gpu table (.memory nid memory ts) ↔
        Searched gpu.node.map nid)) ∧
      ∀ nid mail mailTs nPtr, nid.Nodup → (Writes gpu table (.mailbox nid mail mailTs nPtr) ↔
        Searched gpu.node.map nid) := by
  have node := loaded.nodes
  have mails (nid : List Nat) : Lookup.getMails gpu nid =
      (Lookup.table2 gpu.node.map nid).map (indexRows (gpu.node.map.map table)) := by
    rw [Lookup.getMails, loaded.memory]
  refine ⟨?_, ?_, ?_, ?_, ?_, ?_⟩
  · refine reads_iff node fun nid => ?_
    rw [Lookup.getNFeat, loaded.nodeFeats]
  · refine reads_iff loaded.edges fun eid => ?_
    rw [Lookup.getEFeat, loaded.edgeFeats]
  · exact reads_iff node mails
  · exact reads_iff node fun nid => (inputMails_eq gpu det nid).trans (mails nid)
  · intro nid memory ts distinct
    exact writes_iff node loaded.memory distinct
  · intro nid mail mailTs nPtr distinct
    exact writes_iff node loaded.memory distinct

end Methods

/-! ## A buffer of two nodes -/

/-- The row of a node. -/
def smallRow (v : Nat) : NodeMem Nat := ⟨[v], v, [[v]], [v]⟩

/-- A buffer of two nodes and two edges. -/
def smallGpu : Gpu Nat Nat Nat where
  node := ⟨[1, 3], [10, 30]⟩
  edge := ⟨[0, 4], [5, 9]⟩
  memory := [smallRow 1, smallRow 3]

theorem smallGpu_loaded : Loaded smallGpu (10 * ·) (5 + ·) smallRow where
  nodes := ⟨by decide, by decide, by decide⟩
  nodeFeats := rfl
  edges := ⟨by decide, by decide, by decide⟩
  edgeFeats := rfl
  memory := rfl

/-- Its nodes are read and written at their own rows. -/
theorem smallGpu_own_rows :
    Reads (Lookup.getNFeat smallGpu) smallGpu.node.map (10 * ·) [3, 1, 3] ∧
      Writes smallGpu smallRow (.memory [3] [[7]] [8]) := by
  obtain ⟨nFeat, -, -, -, memory, -⟩ :=
    lookups_iff smallGpu smallRow (10 * ·) (5 + ·) smallRow smallGpu_loaded
  exact ⟨(nFeat _).mpr (Searched.of_length (by decide) (by decide) (by decide)),
    (memory _ _ _ (by decide)).mpr (Searched.of_length (by decide) (by decide) (by decide))⟩

/-- A node in between is read and written at the row of the other one. -/
theorem smallGpu_aliases :
    2 ∉ smallGpu.node.map ∧ Lookup.getNFeat smallGpu [2] = some (.ok [30]) ∧
      Lookup.update smallGpu (.memory [2] [[7]] [8]) =
        some (.ok { smallGpu with memory := [smallRow 1, ⟨[7], 8, [[3]], [3]⟩] }) :=
  ⟨by decide, rfl, rfl⟩

end Dolphin.Buffer
