import Mathlib.Data.List.Nodup
import Dolphin.Tensor.Mask

/-!
# Pools of slots

A pool hands out the slots `0, 1, …, size - 1` to keys. Its one invariant is that
the slots of the live keys followed by the free slots are a permutation of all
slots: no slot has two owners, no slot is both live and free, and none is lost.

`assign` gives slots to new keys, from the free ones and from slots the pool is
grown by; `release` takes keys away and frees their slots. `Holds` says that the
rows of a table hold the values of the live keys, slot by slot.
-/

namespace Dolphin.Alloc

open Dolphin.Tensor

variable {κ α : Type*}

/-- Keys with their slots, and the slots nobody owns. -/
structure SlotPool (κ : Type*) where
  slot : κ → Nat
  live : List κ
  free : List Nat
  size : Nat
  exact : (live.map slot ++ free).Perm (List.range size)

namespace SlotPool

/-- No key and no slot. -/
def empty (slot : κ → Nat) : SlotPool κ where
  slot := slot
  live := []
  free := []
  size := 0
  exact := List.Perm.refl _

variable (pool : SlotPool κ)

theorem nodup : (pool.live.map pool.slot ++ pool.free).Nodup :=
  pool.exact.nodup_iff.mpr List.nodup_range

theorem slots_nodup : (pool.live.map pool.slot).Nodup :=
  (List.nodup_append.mp pool.nodup).1

theorem live_nodup : pool.live.Nodup :=
  pool.slots_nodup.of_map

theorem free_nodup : pool.free.Nodup :=
  (List.nodup_append.mp pool.nodup).2.1

/-- Live keys have pairwise distinct slots. -/
theorem slot_injective {x y : κ} (xLive : x ∈ pool.live) (yLive : y ∈ pool.live)
    (same : pool.slot x = pool.slot y) : x = y :=
  List.inj_on_of_nodup_map pool.slots_nodup xLive yLive same

/-- A free slot belongs to no live key. -/
theorem slot_notMem_free {x : κ} (live : x ∈ pool.live) : pool.slot x ∉ pool.free := by
  intro free
  exact (List.nodup_append.mp pool.nodup).2.2 _ (List.mem_map_of_mem live) _ free rfl

/-- Every slot is live or free. -/
theorem lt_size_iff {s : Nat} :
    s < pool.size ↔ (∃ x ∈ pool.live, pool.slot x = s) ∨ s ∈ pool.free := by
  have member := pool.exact.mem_iff (a := s)
  rw [List.mem_append, List.mem_map, List.mem_range] at member
  exact member.symm

theorem slot_lt {x : κ} (live : x ∈ pool.live) : pool.slot x < pool.size :=
  pool.lt_size_iff.mpr (Or.inl ⟨x, live, rfl⟩)

theorem length_add : pool.live.length + pool.free.length = pool.size := by
  simpa using pool.exact.length_eq

/-- Of the free slots in increasing order the first ones are small: below them are
only live slots and free ones taken before. -/
theorem lowest_lt {sorted : List Nat} (increasing : sorted.Pairwise (· < ·))
    (free : pool.free.Perm sorted) {count s : Nat} (member : s ∈ sorted.take count) :
    s < pool.live.length + count := by
  obtain ⟨j, short, rfl⟩ := List.getElem_of_mem member
  have position : j < sorted.length := by
    rw [List.length_take] at short
    omega
  rw [List.getElem_take]
  have below : ∀ r ∈ List.range sorted[j], r ∈ pool.live.map pool.slot ++ sorted.take j := by
    intro r smaller
    have bound : sorted[j] < pool.size :=
      pool.lt_size_iff.mpr (Or.inr (free.mem_iff.mpr (List.getElem_mem position)))
    have less : r < sorted[j] := List.mem_range.mp smaller
    rcases pool.lt_size_iff.mp (Nat.lt_trans less bound) with ⟨x, live, rfl⟩ | isFree
    · exact List.mem_append_left _ (List.mem_map_of_mem live)
    · obtain ⟨i, inside, rfl⟩ := List.getElem_of_mem (free.mem_iff.mp isFree)
      have before : i < j := by
        by_contra later
        rcases Nat.eq_or_lt_of_le (Nat.not_lt.mp later) with rfl | after
        · exact Nat.lt_irrefl _ less
        · have order := List.pairwise_iff_getElem.mp increasing j i position inside after
          omega
      exact List.mem_append_right _ (List.mem_take_iff_getElem.mpr ⟨i, by omega, rfl⟩)
  have count_le := List.nodup_range.length_le_of_subset below
  simp only [List.length_range, List.length_append, List.length_map, List.length_take] at count_le
  rw [List.length_take] at short
  omega

/-- A pool grown by further slots. -/
theorem exact_grown (grown : Nat) :
    (pool.live.map pool.slot ++ (pool.free ++ List.range' pool.size grown)).Perm
      (List.range (pool.size + grown)) := by
  rw [List.range_add, ← List.range'_eq_map_range, ← List.append_assoc]
  exact pool.exact.append_right _

/-- What `assign` may choose from has no slot twice. -/
theorem supply_nodup (grown : Nat) : (pool.free ++ List.range' pool.size grown).Nodup :=
  (List.nodup_append.mp ((pool.exact_grown grown).nodup_iff.mpr List.nodup_range)).2.1

variable {pool}

/-- New keys take slots from the free ones and from `grown` further slots;
`rest` is what stays free. -/
def assign (pool : SlotPool κ) (slot : κ → Nat) (keys : List κ) (rest : List Nat) (grown : Nat)
    (kept : ∀ x ∈ pool.live, slot x = pool.slot x)
    (supply : (keys.map slot ++ rest).Perm (pool.free ++ List.range' pool.size grown)) :
    SlotPool κ where
  slot := slot
  live := pool.live ++ keys
  free := rest
  size := pool.size + grown
  exact := by
    have unchanged : pool.live.map slot = pool.live.map pool.slot := List.map_congr_left kept
    rw [List.map_append, List.append_assoc, unchanged]
    exact (supply.append_left _).trans (pool.exact_grown grown)

/-- `after` is `pool` with slots for `keys`. -/
def Assigns (pool : SlotPool κ) (keys : List κ) (after : SlotPool κ) : Prop :=
  ∃ slot rest grown kept supply, after = pool.assign slot keys rest grown kept supply

theorem Assigns.live {keys : List κ} {after : SlotPool κ} (assigns : pool.Assigns keys after) :
    after.live = pool.live ++ keys := by
  obtain ⟨slot, rest, grown, kept, supply, rfl⟩ := assigns
  rfl

/-- The keys in `gone` give their slots back. -/
def release (pool : SlotPool κ) (gone : κ → Bool) : SlotPool κ where
  slot := pool.slot
  live := pool.live.filter fun x => !gone x
  free := pool.free ++ (pool.live.filter gone).map pool.slot
  size := pool.size
  exact := by
    have split : (pool.live.filter gone ++ pool.live.filter fun x => !gone x).Perm pool.live :=
      List.filter_append_perm gone pool.live
    have slots := (split.map pool.slot).append_right pool.free
    rw [List.map_append] at slots
    refine List.Perm.trans ?_ (slots.trans pool.exact)
    rw [List.append_assoc, ← List.append_assoc]
    exact List.perm_append_comm.trans (List.Perm.refl _)

/-! ## Rows kept by slot -/

/-- The row at the slot of every live key holds the key's value. -/
def Holds (pool : SlotPool κ) (rows : List α) (value : κ → α) : Prop :=
  ∀ x ∈ pool.live, rows[pool.slot x]? = some (value x)

theorem Holds.empty (slot : κ → Nat) (rows : List α) (value : κ → α) :
    (SlotPool.empty slot).Holds rows value := by
  intro x live
  simp [SlotPool.empty] at live

/-- Writing the rows of the new keys keeps the rows of the old ones. -/
theorem Holds.assign {rows : List α} {value : κ → α} (holds : pool.Holds rows value)
    {keys : List κ} {after : SlotPool κ} (assigns : pool.Assigns keys after)
    (room : ∀ x ∈ keys, after.slot x < rows.length) :
    after.Holds (indexAssign rows (keys.map after.slot) (keys.map value)) value := by
  have distinct := after.slots_nodup
  obtain ⟨slot, rest, grown, kept, supply, rfl⟩ := assigns
  have apart : (pool.live.map slot ++ keys.map slot).Nodup := by
    simpa [SlotPool.assign] using distinct
  intro x live
  rcases List.mem_append.mp live with old | new
  · have untouched : slot x ∉ keys.map slot := fun taken =>
      (List.nodup_append.mp apart).2.2 _ (List.mem_map_of_mem old) _ taken rfl
    have row := holds x old
    rw [← kept x old] at row
    exact (indexAssign_other untouched rows _).trans row
  · exact indexAssign_column value (List.nodup_append.mp apart).2.1 new (room x new)

/-- Releasing keys keeps the rows of the others. -/
theorem Holds.release {rows : List α} {value : κ → α} (holds : pool.Holds rows value)
    (gone : κ → Bool) : (pool.release gone).Holds rows value :=
  fun x live => holds x (List.mem_filter.mp live).1

end SlotPool

end Dolphin.Alloc
