import Dolphin.Eid.BatchFile

/-!
# A file of batches that is cut off

`f.read` returns what is left when a file ends early, and the reader does not compare it
with the length it has read. A cut inside a length or inside an id raises, and one between
two batches gives the batches in front of it. A cut between a length and the last id
gives a batch that is too short.
-/

namespace Dolphin.Eid

open Dolphin.Number

/-! ## Part of an array -/

/-- Only whole elements are read. -/
theorem frombuffer_eq_none {data : List UInt8} (part : ¬4 ∣ data.length) :
    frombuffer data = none := by
  induction data using frombuffer.induct with
  | case1 => exact absurd (Nat.dvd_zero 4) part
  | case2 b0 b1 b2 b3 data ih =>
      have rest : ¬4 ∣ data.length := by
        simp only [List.length_cons] at part
        omega
      rw [frombuffer, ih rest]
      rfl
  | case3 data notNil notLong => rw [frombuffer] <;> assumption

theorem take_tofile (ids : List Int) (k : Nat) :
    (tofile ids).take (4 * k) = tofile (ids.take k) := by
  induction ids generalizing k with
  | nil => simp [tofile]
  | cons id ids ih =>
      cases k with
      | zero => rfl
      | succ k =>
          have front : tofile (id :: ids) = toSignedBytes 4 id ++ tofile ids := rfl
          have count : 4 * (k + 1) = (toSignedBytes 4 id).length + 4 * k := by
            rw [length_toSignedBytes]
            omega
          rw [front, count, List.take_length_add_append, ih]
          rfl

/-- The elements of an array in front of a cut. -/
theorem frombuffer_take_tofile {ids : List Int} (int32 : ∀ id ∈ ids, IsInt32 id) {size : Nat}
    (inside : size ≤ (tofile ids).length) :
    frombuffer ((tofile ids).take size) = if 4 ∣ size then some (ids.take (size / 4)) else none := by
  split
  · rename_i whole
    have words : size = 4 * (size / 4) := (Nat.mul_div_cancel' whole).symm
    conv_lhs => rw [words]
    rw [take_tofile, frombuffer_tofile fun id member => int32 id (List.mem_of_mem_take member)]
  · rename_i part
    refine frombuffer_eq_none ?_
    rwa [List.length_take, Nat.min_eq_left inside]

/-! ## Part of a batch -/

theorem length_batchBytes (batch : List Int) :
    (batchBytes batch).length = 4 + 4 * batch.length := by
  rw [batchBytes_eq, List.length_append, length_lenBytes, length_tofile]

/-- The ids of a batch up to the end of the file. -/
theorem Storable.readBody_take {batch : List Int} (storable : Storable batch)
    {times : Int → Int → Int} (product : 0 < batch.length → times batch.length 4 = batch.length * 4)
    {size : Nat} (inside : size < (tofile batch).length) :
    Eid.readBody times batch.length ((tofile batch).take size) =
      if 4 ∣ size then some (batch.take (size / 4), []) else none := by
  have positive : 0 < batch.length := by
    rw [length_tofile] at inside
    omega
  have short : ((tofile batch).take size).length ≤ ((batch.length : Int) * 4).toNat := by
    rw [length_tofile] at inside
    rw [List.length_take]
    omega
  rw [Eid.readBody, if_pos (by exact_mod_cast positive), product positive, fileRead,
    if_pos (by omega), List.take_of_length_le short, List.drop_of_length_le short]
  simp only [Option.bind_eq_bind, Option.bind_some,
    frombuffer_take_tofile storable.int32 (Nat.le_of_lt inside)]
  split <;> rfl

/-- The last turns of the reader on a batch that is cut off. -/
theorem Storable.readLoop_take {batch : List Int} (storable : Storable batch)
    {times : Int → Int → Int} (product : 0 < batch.length → times batch.length 4 = batch.length * 4)
    (fuel : Nat) {size : Nat} (inside : size < (batchBytes batch).length) :
    Eid.readLoop times (fuel + 2) ((batchBytes batch).take size) =
      if size = 0 then some []
      else if 4 ∣ size then some [batch.take (size / 4 - 1)] else none := by
  have four := length_lenBytes batch
  by_cases none_ : size = 0
  · rw [if_pos none_, none_, List.take_zero]
    rfl
  rw [if_neg none_]
  by_cases cutLength : size < 4
  · -- The length itself is cut off.
    have part : ¬4 ∣ size := by omega
    have bytes : ((batchBytes batch).take size).take 4 = (batchBytes batch).take size := by
      rw [List.take_take, Nat.min_eq_right (Nat.le_of_lt cutLength)]
    have length : ((batchBytes batch).take size).length = size := by
      rw [List.length_take, Nat.min_eq_left (Nat.le_of_lt inside)]
    have some_ : (batchBytes batch).take size ≠ [] := List.ne_nil_of_length_pos (by omega)
    rw [if_neg part, Eid.readLoop]
    simp only [bytes, if_neg some_, frombuffer_eq_none (by rwa [length]), Option.bind_eq_bind,
      Option.bind_none]
  · -- The length is whole, and the cut is behind `size - 4` bytes of the ids.
    obtain ⟨rest, rfl⟩ := Nat.exists_eq_add_of_le (Nat.le_of_not_lt cutLength)
    have split : (batchBytes batch).take (4 + rest) = lenBytes batch ++ (tofile batch).take rest := by
      rw [batchBytes_eq, ← four, List.take_length_add_append]
    have ids : rest < (tofile batch).length := by
      rw [length_batchBytes] at inside
      rw [length_tofile]
      omega
    have some_ : lenBytes batch ≠ [] := List.ne_nil_of_length_pos (by omega)
    have boundary : 4 ∣ 4 + rest ↔ 4 ∣ rest := by omega
    have count : (4 + rest) / 4 - 1 = rest / 4 := by omega
    rw [split, Eid.readLoop]
    simp only [List.take_left' four, List.drop_left' four, if_neg some_,
      storable.frombuffer_lenBytes, List.head?_cons, storable.readBody_take product ids,
      Option.bind_eq_bind, Option.bind_some, boundary, count]
    split <;> rfl

/-! ## The cut file -/

/-- The batches in front of a cut are read before it. -/
theorem readLoop_append {front : List (List Int)} {times : Int → Int → Int}
    (storable : ∀ batch ∈ front, Storable batch)
    (product : ∀ batch ∈ front, 0 < batch.length → times batch.length 4 = batch.length * 4)
    (fuel : Nat) (rest : List UInt8) :
    readLoop times (fuel + front.length) (writeBatches front ++ rest) =
      (readLoop times fuel rest).map (front ++ ·) := by
  induction front with
  | nil => simp [writeBatches]
  | cons batch front ih =>
      obtain ⟨own, others⟩ := List.forall_mem_cons.mp storable
      obtain ⟨ownProduct, otherProducts⟩ := List.forall_mem_cons.mp product
      have bytes : writeBatches (batch :: front) = batchBytes batch ++ writeBatches front := rfl
      rw [bytes, List.append_assoc, List.length_cons, ← Nat.add_assoc, own.readLoop ownProduct,
        ih others otherProducts, Option.map_map]
      rfl

/-- The batch that a cut lies in. -/
theorem exists_cut_batch {batches : List (List Int)} {cut : Nat}
    (proper : cut < (writeBatches batches).length) :
    ∃ front batch back size, batches = front ++ batch :: back ∧
      cut = (writeBatches front).length + size ∧ size < (batchBytes batch).length := by
  induction batches generalizing cut with
  | nil => exact absurd proper (Nat.not_lt_zero _)
  | cons batch batches ih =>
      have bytes : writeBatches (batch :: batches) = batchBytes batch ++ writeBatches batches := rfl
      rw [bytes, List.length_append] at proper
      by_cases own : cut < (batchBytes batch).length
      · exact ⟨[], batch, batches, cut, rfl, (Nat.zero_add cut).symm, own⟩
      · have later : cut - (batchBytes batch).length < (writeBatches batches).length := by omega
        obtain ⟨front, cutBatch, back, size, rfl, behind, inside⟩ := ih later
        refine ⟨batch :: front, cutBatch, back, size, rfl, ?_, inside⟩
        have front_ : writeBatches (batch :: front) = batchBytes batch ++ writeBatches front := rfl
        rw [front_, List.length_append]
        omega

/-- What is read of a file that is cut off inside a batch. -/
theorem readBatches_take {front back : List (List Int)} {batch : List Int}
    {times : Int → Int → Int} (storable : ∀ b ∈ front ++ batch :: back, Storable b)
    (product : ∀ b ∈ front ++ batch :: back, 0 < b.length → times b.length 4 = b.length * 4)
    {size : Nat} (inside : size < (batchBytes batch).length) :
    readBatches times
        ((writeBatches (front ++ batch :: back)).take ((writeBatches front).length + size)) =
      if size = 0 then some front
      else if 4 ∣ size then some (front ++ [batch.take (size / 4 - 1)]) else none := by
  obtain ⟨fronts, others⟩ := List.forall_mem_append.mp storable
  obtain ⟨frontProducts, otherProducts⟩ := List.forall_mem_append.mp product
  have bytes : (writeBatches (front ++ batch :: back)).take ((writeBatches front).length + size) =
      writeBatches front ++ (batchBytes batch).take size := by
    have parts : writeBatches (front ++ batch :: back) =
        writeBatches front ++ (batchBytes batch ++ writeBatches back) := by
      rw [writeBatches, List.flatMap_append]
      rfl
    rw [parts, List.take_length_add_append, List.take_append_of_le_length (Nat.le_of_lt inside)]
  have turns := length_le_writeBatches front
  by_cases none_ : size = 0
  · -- Nothing is behind the front, and no turn is needed for it.
    rw [if_pos none_, bytes, none_, List.take_zero, List.append_nil]
    exact readLoop_writeBatches fronts frontProducts (by omega)
  · have length : (writeBatches front ++ (batchBytes batch).take size).length =
        (writeBatches front).length + size := by
      rw [List.length_append, List.length_take, Nat.min_eq_left (Nat.le_of_lt inside)]
    obtain ⟨fuel, enough⟩ : ∃ fuel,
        (writeBatches front ++ (batchBytes batch).take size).length + 1 =
          fuel + 2 + front.length := ⟨(writeBatches front).length + size - front.length - 1, by omega⟩
    rw [bytes, readBatches, enough, readLoop_append fronts frontProducts,
      (others batch List.mem_cons_self).readLoop_take (otherProducts batch List.mem_cons_self) fuel
        inside, if_neg none_, if_neg none_]
    split <;> rfl

/-- The batches in front of a cut, each as it was written. -/
def WholeBatches (read batches : List (List Int)) : Prop := read <+: batches

theorem WholeBatches.length {read batches : List (List Int)} (whole : WholeBatches read batches)
    {i : Nat} {ids batch : List Int} (own : read[i]? = some ids)
    (written : batches[i]? = some batch) : ids.length = batch.length := by
  obtain ⟨back, rfl⟩ := whole
  obtain ⟨bound, -⟩ := List.getElem?_eq_some_iff.mp own
  rw [List.getElem?_append_left bound, own] at written
  rw [Option.some.inj written]

/-- A cut file gives whole batches or raises if and only if the cut is not behind whole
ids of a batch that has more. -/
theorem readBatchesFromBin_take_iff (times : Int → Int → Int) (batches : List (List Int))
    (storable : ∀ batch ∈ batches, Storable batch)
    (product : ∀ batch ∈ batches, 0 < batch.length → times batch.length 4 = batch.length * 4)
    (cut : Nat) (proper : cut < (EidAnalyzeParallel.writeBatchesToBin batches).length) :
    (∀ read, Utils.readBatchesFromBin times
        ((EidAnalyzeParallel.writeBatchesToBin batches).take cut) = some read →
      WholeBatches read batches) ↔
    ¬∃ front batch back k, batches = front ++ batch :: back ∧ k < batch.length ∧
      cut = (EidAnalyzeParallel.writeBatchesToBin front).length + 4 + 4 * k := by
  constructor
  · rintro whole ⟨front, batch, back, k, rfl, more, rfl⟩
    have inside : 4 + 4 * k < (batchBytes batch).length := by
      rw [length_batchBytes]
      omega
    have count : (4 + 4 * k) / 4 - 1 = k := by omega
    have read := readBatches_take storable product inside
    rw [if_neg (by omega), if_pos (by omega), count, ← Nat.add_assoc] at read
    have cutShort : (front ++ [batch.take k])[front.length]? = some (batch.take k) := by simp
    have written : (front ++ batch :: back)[front.length]? = some batch := by simp
    have lengths := (whole _ read).length cutShort written
    rw [List.length_take] at lengths
    omega
  · intro boundary read result
    obtain ⟨front, batch, back, size, rfl, rfl, inside⟩ := exists_cut_batch proper
    have value := readBatches_take storable product inside
    replace value := result.symm.trans value
    split at value
    · obtain rfl := Option.some.inj value
      exact List.prefix_append _ _
    · split at value
      · rw [length_batchBytes] at inside
        refine absurd ⟨front, batch, back, size / 4 - 1, rfl, by omega, ?_⟩ boundary
        change (writeBatches front).length + size = (writeBatches front).length + 4 + _
        omega
      · exact absurd value (by simp)

/-- A cut inside the second id of two. -/
theorem readBatchesFromBin_take_iff_ten :
    (∀ read, Utils.readBatchesFromBin (· * ·)
        ((EidAnalyzeParallel.writeBatchesToBin [[1, 2]]).take 10) = some read →
      WholeBatches read [[1, 2]]) ↔
    ¬∃ front batch back k, [[1, 2]] = front ++ batch :: back ∧ k < batch.length ∧
      10 = (EidAnalyzeParallel.writeBatchesToBin front).length + 4 + 4 * k :=
  readBatchesFromBin_take_iff (· * ·) [[1, 2]]
    (fun batch member => by
      obtain rfl := List.mem_singleton.mp member
      exact ⟨by decide, by decide⟩)
    (fun _ _ _ => rfl) 10 (by decide)

/-- A cut behind the first of two ids gives a batch of one id. -/
theorem readBatchesFromBin_take_eight :
    ¬∀ read, Utils.readBatchesFromBin (· * ·)
        ((EidAnalyzeParallel.writeBatchesToBin [[1, 2]]).take 8) = some read →
      WholeBatches read [[1, 2]] := by
  intro whole
  have read : Utils.readBatchesFromBin (· * ·)
      ((EidAnalyzeParallel.writeBatchesToBin [[1, 2]]).take 8) = some [[1]] := by decide
  exact absurd ((whole _ read).length (show [[1]][0]? = some [1] from rfl) rfl) (by decide)

end Dolphin.Eid
