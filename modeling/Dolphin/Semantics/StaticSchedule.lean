import Mathlib.Data.List.Sort
import Mathlib.Data.List.Nodup

/-!
# Loops shared out in chunks

The iterations of a loop are cut into chunks of one size, and a team of threads takes
the chunks in turn, the first thread again after the last. Each thread runs its
iterations in order. Where each thread gets one chunk at most, its iterations lie behind
those of the threads before it.
-/

namespace Dolphin.Semantics.StaticSchedule

variable {chunk threads count : Nat}

/-- The iterations of one thread. -/
def iterations (chunk threads count thread : Nat) : List Nat :=
  (List.range count).filter fun i => i / chunk % threads = thread

/-- The iterations of all threads, thread by thread. -/
def threadOrder (chunk threads count : Nat) : List Nat :=
  (List.range threads).flatMap (iterations chunk threads count)

theorem mem_iterations {thread i : Nat} :
    i ∈ iterations chunk threads count thread ↔ i < count ∧ i / chunk % threads = thread := by
  simp [iterations]

/-- The iterations of a thread are in order. -/
theorem iterations_pairwise (chunk threads count thread : Nat) :
    (iterations chunk threads count thread).Pairwise (· < ·) :=
  List.Pairwise.filter _ List.pairwise_lt_range

/-- Each iteration has one thread. -/
theorem threadOrder_nodup (chunk threads count : Nat) :
    (threadOrder chunk threads count).Nodup := by
  refine List.nodup_flatMap.mpr ⟨fun thread _ => ?_, ?_⟩
  · exact (iterations_pairwise chunk threads count thread).imp Nat.ne_of_lt
  · refine List.pairwise_lt_range.imp ?_
    intro thread other order i own foreign
    have first := (mem_iterations.mp own).2
    have second := (mem_iterations.mp foreign).2
    omega

theorem mem_threadOrder (positive : 0 < threads) {i : Nat} :
    i ∈ threadOrder chunk threads count ↔ i < count := by
  rw [threadOrder, List.mem_flatMap]
  constructor
  · rintro ⟨thread, -, own⟩
    exact (mem_iterations.mp own).1
  · intro bound
    refine ⟨i / chunk % threads, ?_, mem_iterations.mpr ⟨bound, rfl⟩⟩
    exact List.mem_range.mpr (Nat.mod_lt _ positive)

/-- Every iteration is run once. -/
theorem threadOrder_perm (positive : 0 < threads) :
    (threadOrder chunk threads count).Perm (List.range count) := by
  refine (List.perm_ext_iff_of_nodup (threadOrder_nodup ..) List.nodup_range).mpr ?_
  intro i
  rw [mem_threadOrder positive, List.mem_range]

@[simp] theorem threadOrder_length (positive : 0 < threads) :
    (threadOrder chunk threads count).length = count := by
  rw [(threadOrder_perm positive).length_eq, List.length_range]

/-- The order thread by thread is the order of the loop if the chunk of an iteration is
also its thread. -/
theorem threadOrder_eq_range (positive : 0 < threads)
    (single : ∀ i < count, ∀ j < count, i / chunk % threads < j / chunk % threads → i < j) :
    threadOrder chunk threads count = List.range count := by
  refine (threadOrder_perm positive).eq_of_pairwise ?_ ?_ List.pairwise_lt_range
  · intro i j _ _ before behind
    omega
  · refine List.pairwise_flatMap.mpr ⟨fun thread _ => iterations_pairwise .., ?_⟩
    refine List.pairwise_lt_range.imp ?_
    intro thread other order i own j foreign
    obtain ⟨inside, rfl⟩ := mem_iterations.mp own
    obtain ⟨inside', rfl⟩ := mem_iterations.mp foreign
    exact single i inside j inside' order

/-- One thread runs the loop as it is. -/
theorem threadOrder_one (chunk count : Nat) : threadOrder chunk 1 count = List.range count := by
  refine threadOrder_eq_range Nat.one_pos ?_
  intro i _ j _ order
  simp only [Nat.mod_one, Nat.lt_irrefl] at order

/-- Chunks for all iterations keep the order of the loop. -/
theorem threadOrder_of_le (positive : 0 < threads) (covers : count ≤ chunk * threads) :
    threadOrder chunk threads count = List.range count := by
  have own : ∀ i < count, i / chunk % threads = i / chunk := by
    intro i bound
    exact Nat.mod_eq_of_lt (Nat.div_lt_of_lt_mul (bound.trans_le covers))
  refine threadOrder_eq_range positive ?_
  intro i inside j inside' order
  rw [own i inside, own j inside'] at order
  exact Nat.lt_of_div_lt_div order

end Dolphin.Semantics.StaticSchedule
