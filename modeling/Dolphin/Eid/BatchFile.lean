import Dolphin.Number.LittleEndian
import Mathlib.Data.List.Basic

/-!
# The file of the batches

`write_batches_to_bin` writes for every batch its length and its edge ids, all as int32.
`read_batches_from_bin` reads a length and as many ids until the file ends. The reader is
there three times and the writer twice; the copies do the same.

The length that is read is a NumPy scalar, and `times` is the product of such a scalar
with a Python integer. NumPy 1 computes it in 64 bits, NumPy 2 in the 32 bits of the
scalar.
-/

namespace Dolphin.Eid

open Dolphin.Number

/-! ## Arrays of int32 -/

/-- `np.array(ids, dtype=np.int32).tofile(f)`. -/
def tofile (ids : List Int) : List UInt8 := ids.flatMap (toSignedBytes 4)

/-- `np.frombuffer(data, dtype=np.int32).tolist()`; the bytes of a part of an element
raise. -/
def frombuffer : List UInt8 → Option (List Int)
  | [] => some []
  | b0 :: b1 :: b2 :: b3 :: data => do
      let ids ← frombuffer data
      some (ofSignedBytes [b0, b1, b2, b3] :: ids)
  | _ => none

/-- `f.read(size)`: the bytes, and those behind them. A size of −1 reads them all, a
smaller one raises. -/
def fileRead (size : Int) (bytes : List UInt8) : Option (List UInt8 × List UInt8) :=
  if 0 ≤ size then some (bytes.take size.toNat, bytes.drop size.toNat)
  else if size = -1 then some (bytes, [])
  else none

/-! ## Writing and reading -/

/-- The turn of the writer for one batch. -/
def batchBytes (batch : List Int) : List UInt8 :=
  tofile [(batch.length : Int)] ++ if 0 < batch.length then tofile batch else []

/-- The loop of the writers. -/
def writeBatches (batches : List (List Int)) : List UInt8 := batches.flatMap batchBytes

/-- The ids of a batch, and the bytes behind them. -/
def readBody (times : Int → Int → Int) (batchLen : Int) (bytes : List UInt8) :
    Option (List Int × List UInt8) :=
  if 0 < batchLen then do
    let read ← fileRead (times batchLen 4) bytes
    let batch ← frombuffer read.1
    some (batch, read.2)
  else some ([], bytes)

/-- The loop of the readers. Every turn reads a length, so there are no more turns than
bytes. -/
def readLoop (times : Int → Int → Int) : Nat → List UInt8 → Option (List (List Int))
  | 0, _ => none
  | fuel + 1, bytes =>
      let lenBytes := bytes.take 4
      if lenBytes = [] then some []
      else do
        let lens ← frombuffer lenBytes
        let batchLen ← lens.head?
        let body ← readBody times batchLen (bytes.drop 4)
        let batches ← readLoop times fuel body.2
        some (body.1 :: batches)

/-- The readers. -/
def readBatches (times : Int → Int → Int) (bytes : List UInt8) : Option (List (List Int)) :=
  readLoop times (bytes.length + 1) bytes

namespace EidAnalyzeParallel

/-- `write_batches_to_bin` of `eid_analyze_parallel`. -/
def writeBatchesToBin (batches : List (List Int)) : List UInt8 := writeBatches batches

/-- `read_batches_from_bin` of `eid_analyze_parallel`. -/
def readBatchesFromBin (times : Int → Int → Int) (bytes : List UInt8) :
    Option (List (List Int)) :=
  readBatches times bytes

end EidAnalyzeParallel

namespace EidCertainNum

/-- `write_batches_to_bin` of `eid_certain_num`. -/
def writeBatchesToBin (batches : List (List Int)) : List UInt8 := writeBatches batches

/-- `read_batches_from_bin` of `eid_certain_num`. -/
def readBatchesFromBin (times : Int → Int → Int) (bytes : List UInt8) :
    Option (List (List Int)) :=
  readBatches times bytes

end EidCertainNum

namespace Utils

/-- `read_batches_from_bin` of `utils`. -/
def readBatchesFromBin (times : Int → Int → Int) (bytes : List UInt8) :
    Option (List (List Int)) :=
  readBatches times bytes

end Utils

/-! ## One array -/

/-- The values of an int32. -/
def IsInt32 (x : Int) : Prop := -2 ^ 31 ≤ x ∧ x < 2 ^ 31

instance (x : Int) : Decidable (IsInt32 x) := inferInstanceAs (Decidable (_ ∧ _))

theorem IsInt32.ofSignedBytes {x : Int} (int32 : IsInt32 x) :
    ofSignedBytes (toSignedBytes 4 x) = x := by
  obtain ⟨low, high⟩ := int32
  exact ofSignedBytes_toSignedBytes (by omega) (by omega)

/-- One element in front of an array. -/
theorem frombuffer_append {x : Int} (int32 : IsInt32 x) (data : List UInt8) :
    frombuffer (toSignedBytes 4 x ++ data) = (frombuffer data).map (x :: ·) := by
  have value := int32.ofSignedBytes
  have length := length_toSignedBytes 4 x
  generalize toSignedBytes 4 x = bytes at value length
  match bytes, length with
  | [b0, b1, b2, b3], _ =>
      rw [List.cons_append, List.cons_append, List.cons_append, List.cons_append,
        List.nil_append, frombuffer, value]
      cases frombuffer data <;> rfl

/-- What was written as int32 is read as it was. -/
theorem frombuffer_tofile {ids : List Int} (int32 : ∀ id ∈ ids, IsInt32 id) :
    frombuffer (tofile ids) = some ids := by
  induction ids with
  | nil => rfl
  | cons id ids ih =>
      obtain ⟨own, rest⟩ := List.forall_mem_cons.mp int32
      have front : tofile (id :: ids) = toSignedBytes 4 id ++ tofile ids := rfl
      rw [front, frombuffer_append own, ih rest]
      rfl

theorem length_tofile (ids : List Int) : (tofile ids).length = 4 * ids.length := by
  induction ids with
  | nil => rfl
  | cons id ids ih =>
      have front : tofile (id :: ids) = toSignedBytes 4 id ++ tofile ids := rfl
      rw [front, List.length_append, length_toSignedBytes, ih, List.length_cons]
      omega

/-! ## One batch -/

/-- A batch that the format can hold. -/
structure Storable (batch : List Int) : Prop where
  length : batch.length < 2 ^ 31
  int32 : ∀ id ∈ batch, IsInt32 id

/-- The length of a batch as it is written. -/
def lenBytes (batch : List Int) : List UInt8 := tofile [(batch.length : Int)]

theorem length_lenBytes (batch : List Int) : (lenBytes batch).length = 4 := length_tofile _

theorem Storable.frombuffer_lenBytes {batch : List Int} (storable : Storable batch) :
    frombuffer (lenBytes batch) = some [(batch.length : Int)] := by
  refine frombuffer_tofile fun id member => ?_
  obtain rfl := List.mem_singleton.mp member
  have bound := storable.length
  exact ⟨by omega, by omega⟩

/-- An empty batch has no bytes behind its length, and the others have those of their
ids. -/
theorem batchBytes_eq (batch : List Int) : batchBytes batch = lenBytes batch ++ tofile batch := by
  cases batch with
  | nil => rfl
  | cons id ids =>
      have positive : 0 < (id :: ids).length := Nat.succ_pos _
      rw [batchBytes, if_pos positive, lenBytes]

/-- The ids of a batch are read when the product gives the count of their bytes. -/
theorem Storable.readBody {batch : List Int} (storable : Storable batch)
    {times : Int → Int → Int} (product : 0 < batch.length → times batch.length 4 = batch.length * 4)
    (rest : List UInt8) : readBody times batch.length (tofile batch ++ rest) = some (batch, rest) := by
  cases batch with
  | nil => rfl
  | cons id ids =>
      have positive : 0 < (id :: ids).length := Nat.succ_pos _
      have size : (((id :: ids).length : Int) * 4).toNat = (tofile (id :: ids)).length := by
        rw [length_tofile]
        omega
      rw [Eid.readBody, if_pos (by exact_mod_cast positive), product positive, fileRead,
        if_pos (by omega), size, List.take_left, List.drop_left]
      simp only [Option.bind_eq_bind, Option.bind_some, frombuffer_tofile storable.int32]

/-! ## The whole file -/

/-- A turn of the reader on the bytes of a batch. -/
theorem Storable.readLoop {batch : List Int} (storable : Storable batch)
    {times : Int → Int → Int} (product : 0 < batch.length → times batch.length 4 = batch.length * 4)
    (fuel : Nat) (rest : List UInt8) :
    readLoop times (fuel + 1) (batchBytes batch ++ rest) =
      (readLoop times fuel rest).map (batch :: ·) := by
  have front : (batchBytes batch ++ rest).take 4 = lenBytes batch := by
    rw [batchBytes_eq, List.append_assoc, List.take_left' (length_lenBytes batch)]
  have behind : (batchBytes batch ++ rest).drop 4 = tofile batch ++ rest := by
    rw [batchBytes_eq, List.append_assoc, List.drop_left' (length_lenBytes batch)]
  have some_ : lenBytes batch ≠ [] := List.ne_nil_of_length_pos (by rw [length_lenBytes]; omega)
  rw [Eid.readLoop]
  simp only [front, behind, if_neg some_, storable.frombuffer_lenBytes, List.head?_cons,
    storable.readBody product, Option.bind_eq_bind, Option.bind_some]
  cases Eid.readLoop times fuel rest <;> rfl

/-- The loop reads back the batches, whatever fuel is left over. -/
theorem readLoop_writeBatches {batches : List (List Int)} {times : Int → Int → Int}
    (storable : ∀ batch ∈ batches, Storable batch)
    (product : ∀ batch ∈ batches, 0 < batch.length → times batch.length 4 = batch.length * 4)
    {fuel : Nat} (enough : batches.length < fuel) :
    readLoop times fuel (writeBatches batches) = some batches := by
  induction batches generalizing fuel with
  | nil =>
      obtain ⟨fuel, rfl⟩ := Nat.exists_eq_succ_of_ne_zero (Nat.ne_of_gt enough)
      rfl
  | cons batch batches ih =>
      obtain ⟨fuel, rfl⟩ := Nat.exists_eq_succ_of_ne_zero (Nat.ne_of_gt (Nat.zero_lt_of_lt enough))
      obtain ⟨own, rest⟩ := List.forall_mem_cons.mp storable
      obtain ⟨ownProduct, restProduct⟩ := List.forall_mem_cons.mp product
      have front : writeBatches (batch :: batches) = batchBytes batch ++ writeBatches batches := rfl
      rw [front, own.readLoop ownProduct, ih rest restProduct (Nat.lt_of_succ_lt_succ enough)]
      rfl

/-- Every batch has bytes. -/
theorem length_le_writeBatches (batches : List (List Int)) :
    batches.length ≤ (writeBatches batches).length := by
  induction batches with
  | nil => exact Nat.le_refl _
  | cons batch batches ih =>
      have front : writeBatches (batch :: batches) = batchBytes batch ++ writeBatches batches := rfl
      rw [front, batchBytes_eq, List.length_append, List.length_append, length_lenBytes,
        List.length_cons]
      omega

/-- Batches are read back when the product gives the counts of their bytes. -/
theorem readBatches_writeBatches {batches : List (List Int)} {times : Int → Int → Int}
    (storable : ∀ batch ∈ batches, Storable batch)
    (product : ∀ batch ∈ batches, 0 < batch.length → times batch.length 4 = batch.length * 4) :
    readBatches times (writeBatches batches) = some batches :=
  readLoop_writeBatches storable product (Nat.lt_succ_of_le (length_le_writeBatches batches))

/-- With the product in 64 bits every reader reads back what either writer wrote. -/
theorem readBatchesFromBin_writeBatchesToBin (times : Int → Int → Int)
    (product : ∀ n : Int, IsInt32 n → times n 4 = n * 4) (batches : List (List Int))
    (lengths : ∀ batch ∈ batches, batch.length < 2 ^ 31)
    (ids : ∀ batch ∈ batches, ∀ id ∈ batch, IsInt32 id) (bytes : List UInt8)
    (written : bytes = EidAnalyzeParallel.writeBatchesToBin batches ∨
      bytes = EidCertainNum.writeBatchesToBin batches) :
    EidAnalyzeParallel.readBatchesFromBin times bytes = some batches ∧
      EidCertainNum.readBatchesFromBin times bytes = some batches ∧
      Utils.readBatchesFromBin times bytes = some batches := by
  have same : bytes = writeBatches batches := written.elim id id
  have back : readBatches times bytes = some batches := by
    rw [same]
    refine readBatches_writeBatches (fun batch member => ⟨lengths batch member, ids batch member⟩) ?_
    intro batch member _
    have bound := lengths batch member
    exact product batch.length ⟨by omega, by omega⟩
  exact ⟨back, back, back⟩

/-- Three batches, one of them empty, are read back. -/
theorem readBatchesFromBin_three :
    EidAnalyzeParallel.readBatchesFromBin (· * ·)
        (EidCertainNum.writeBatchesToBin [[3, -1], [], [2147483647]]) =
        some [[3, -1], [], [2147483647]] ∧
      EidCertainNum.readBatchesFromBin (· * ·)
        (EidCertainNum.writeBatchesToBin [[3, -1], [], [2147483647]]) =
        some [[3, -1], [], [2147483647]] ∧
      Utils.readBatchesFromBin (· * ·)
        (EidCertainNum.writeBatchesToBin [[3, -1], [], [2147483647]]) =
        some [[3, -1], [], [2147483647]] :=
  readBatchesFromBin_writeBatchesToBin (· * ·) (fun _ _ => rfl) _ (by simp) (by decide) _
    (.inr rfl)

/-! ## The product in 32 bits -/

/-- The product in the 32 bits of the scalar. -/
def wrappedTimes (n k : Int) : Int := (n * k).bmod (2 ^ 32)

/-- It is enough for batches of fewer than 2 ^ 29 edges. -/
theorem readBatches_wrappedTimes {batches : List (List Int)}
    (storable : ∀ batch ∈ batches, Storable batch)
    (short : ∀ batch ∈ batches, batch.length < 2 ^ 29) :
    readBatches wrappedTimes (writeBatches batches) = some batches := by
  refine readBatches_writeBatches storable fun batch member _ => ?_
  have bound := short batch member
  exact Int.bmod_eq_of_le (by omega) (by omega)

/-- A batch of 2 ^ 29 edges is written, but not read. -/
theorem readBatches_wrappedTimes_long {batch : List Int} (storable : Storable batch)
    (long : batch.length = 2 ^ 29) : readBatches wrappedTimes (writeBatches [batch]) = none := by
  have size : wrappedTimes batch.length 4 = -2 ^ 31 := by rw [long]; rfl
  have bytes : writeBatches [batch] = lenBytes batch ++ tofile batch := by
    rw [writeBatches, List.flatMap_singleton, batchBytes_eq]
  have some_ : lenBytes batch ≠ [] := List.ne_nil_of_length_pos (by rw [length_lenBytes]; omega)
  have raises (data : List UInt8) : readBody wrappedTimes batch.length data = none := by
    rw [readBody, if_pos (by omega), size]
    rfl
  rw [readBatches, readLoop, bytes, List.take_left' (length_lenBytes batch)]
  simp only [if_neg some_, storable.frombuffer_lenBytes, List.head?_cons, raises,
    Option.bind_eq_bind, Option.bind_some, Option.bind_none]

end Dolphin.Eid
